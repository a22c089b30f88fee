/-
  **Loading a project with its imports** (`load_with_imports_in` in `project.rs`).

  The loader takes files from a queue and queues what they import.  A file is recognised by its
  canonical path, but its imports are resolved from the directory of the path it was queued under:
  where a link leads to one file from two directories, only the imports seen from the first are
  loaded.
-/
import CambrianLang.Lib.KeyedWalk
import CambrianLang.Lib.MapM
import CambrianLang.Project.Merge

namespace CambrianLang.Authored

open KeyedWalk

/-! ### Paths -/

/-- `PathBuf`, by its components: a repeated separator and a `.` that is not the first component
say nothing. -/
structure PathBuf where
  absolute : Bool
  components : List String
deriving DecidableEq

namespace PathBuf

/-- A component that counts behind another one. -/
def counts (component : String) : Bool := component != "" && component != "."

/-- `PathBuf::from`. -/
def ofString (s : String) : PathBuf where
  absolute := s.toList.head? == some '/'
  components :=
    match (s.toList.splitOn '/').map String.ofList with
    | "." :: rest => "." :: rest.filter counts
    | pieces => pieces.filter counts

/-- `Path::join`. -/
def join (p q : PathBuf) : PathBuf :=
  if q.absolute then q
  else if p = ⟨false, []⟩ then q
  else match q.components with
    | "." :: rest => ⟨p.absolute, p.components ++ rest⟩
    | cs => ⟨p.absolute, p.components ++ cs⟩

/-- `Path::parent`. -/
def parent (p : PathBuf) : Option PathBuf :=
  if p.components.isEmpty then none else some { p with components := p.components.dropLast }

/-- `Path::strip_prefix`. -/
def stripPrefix (p base : PathBuf) : Option PathBuf :=
  if p.absolute == base.absolute && base.components.isPrefixOf p.components then
    some ⟨false, p.components.drop base.components.length⟩
  else none

/-- The text of a path. -/
def display (p : PathBuf) : String :=
  (if p.absolute then "/" else "") ++ String.intercalate "/" p.components

end PathBuf

/-! ### The file system and the parser -/

/-- The errors of `ProjectError` that loading returns. -/
inductive LoadError (D : Type) where
  | io (message : String)
  | packaging (code message path : String)
  | diagnostics (diags : List D)

/-- What the loader meets outside of it: a file system in which a path leads to a canonical path
and a canonical path to a source, the variables of the process, and the parser with its
diagnostics. -/
structure Surroundings (E D : Type) where
  /-- `fs::canonicalize`. -/
  canonicalize : PathBuf → Option PathBuf
  /-- The sources, by canonical path. -/
  source : PathBuf → Option String
  ioMessage : PathBuf → String
  var : String → Option String
  /-- `ProgramParser::parse`. -/
  parse : String → Except E Program
  recoverParseDiagnostics : (source path : String) → ℕ → List D
  diagnosticFromParseError : E → (path source : String) → D

section Loading

variable {E D : Type} (sur : Surroundings E D)

/-- `fs::read_to_string`. -/
def Surroundings.read (p : PathBuf) : Option String := (sur.canonicalize p).bind sur.source

/-- `Path::is_file`. -/
def Surroundings.isFile (p : PathBuf) : Bool := (sur.read p).isSome

/-- `canonicalise_or_pass`. -/
def canonicaliseOrPass (p : PathBuf) : PathBuf := (sur.canonicalize p).getD p

/-- `display_rel`. -/
def displayRel (p baseDir : PathBuf) : String := ((p.stripPrefix baseDir).getD p).display

/-! ### Resolving an import -/

/-- What stands before the first `${` and what stands behind it. -/
def findOpening : List Char → Option (List Char × List Char)
  | '$' :: '{' :: rest => some ([], rest)
  | c :: rest => (findOpening rest).map fun r => (c :: r.1, r.2)
  | [] => none

/-- The loop of `expand_env_path` on what is left of the text. -/
def expandFrom : ℕ → List Char → List Char
  | 0, rest => rest
  | fuel + 1, rest =>
      match findOpening rest with
      | none => rest
      | some (before, after) =>
          let name := after.takeWhile (· != '}')
          match after.dropWhile (· != '}') with
          | [] => rest
          | _ :: behind =>
              let value := (sur.var (String.ofList name)).filter fun _ => !name.isEmpty
              before ++ ((value.map String.toList).getD (['$', '{'] ++ name ++ ['}'])) ++
                expandFrom fuel behind

/-- `expand_env_path`. -/
def expandEnvPath (s : String) : String := String.ofList (expandFrom sur s.length s.toList)

/-- `is_explicitly_relative`. -/
def isExplicitlyRelative (spec : String) : Bool :=
  ["./", "../", ".\\", "..\\"].any fun start => start.toList.isPrefixOf spec.toList

/-- `f5`. -/
def f5 (path spec : String) (probed : List PathBuf) : LoadError D :=
  .packaging "F5" ("F5: import '" ++ spec ++ "' did not resolve (probed: " ++
    String.intercalate ", " (probed.map PathBuf.display) ++ ")") path

/-- `resolve_search_spec`. -/
def resolveSearchSpec (spec errPath : String) (firstRoot : PathBuf) (libraryRoots : List PathBuf) :
    Except (LoadError D) PathBuf :=
  let p := PathBuf.ofString (expandEnvPath sur spec)
  if p.absolute then if sur.isFile p then .ok p else .error (f5 errPath spec [p])
  else
    let candidates := (firstRoot :: libraryRoots).map fun root => root.join p
    match candidates.find? sur.isFile with
    | some found => .ok found
    | none => .error (f5 errPath spec candidates)

/-- `resolve_in_language_import`. -/
def resolveInLanguageImport (spec : String) (hereDir : PathBuf) (libraryRoots : List PathBuf)
    (importerDisplay : String) : Except (LoadError D) PathBuf :=
  if isExplicitlyRelative spec then .ok (hereDir.join (PathBuf.ofString spec))
  else resolveSearchSpec sur spec importerDisplay hereDir libraryRoots

/-- The imports of a file, in their order, up to the first that does not resolve. -/
def resolveImports (libraryRoots : List PathBuf) (path : PathBuf) (rel : String) :
    List ImportFile → Except (LoadError D) (List PathBuf)
  | [] => .ok []
  | fi :: fis => do
      let hereDir := path.parent.getD (PathBuf.ofString ".")
      let target ← resolveInLanguageImport sur fi.path hereDir libraryRoots rel
      let rest ← resolveImports libraryRoots path rel fis
      return target :: rest

/-! ### The loop -/

variable (baseDir : PathBuf) (libraryRoots : List PathBuf) (maxErrors : ℕ)

/-- The diagnostics behind a file that does not parse. -/
def withParseError (error : E) (source rel : String) (diags : List D) : List D :=
  if diags.length < maxErrors then
    match sur.recoverParseDiagnostics source rel (maxErrors - diags.length) with
    | [] => diags ++ [sur.diagnosticFromParseError error rel source]
    | recovered => diags ++ recovered
  else diags

/-- The loop of `load_with_imports_in` over the queue. -/
def loadLoop : ℕ → List PathBuf → List TaggedProgram → List D → List (PathBuf × SourceKind) →
    Option (Except (LoadError D) (List TaggedProgram))
  | 0, _, _, _, _ => none
  | _ + 1, _, out, diags, [] =>
      some (if diags.isEmpty then .ok out else .error (.diagnostics (diags.take maxErrors)))
  | fuel + 1, seen, out, diags, (path, kind) :: queue =>
      let canon := canonicaliseOrPass sur path
      if canon ∈ seen then loadLoop fuel seen out diags queue
      else match sur.read path with
        | none => some (.error (.io (path.display ++ ": " ++ sur.ioMessage path)))
        | some source =>
            let rel := displayRel path baseDir
            match sur.parse source with
            | .ok program =>
                match resolveImports sur libraryRoots path rel program.fileImports with
                | .error e => some (.error e)
                | .ok targets =>
                    loadLoop fuel (canon :: seen) (out ++ [⟨rel, kind, program⟩]) diags
                      (queue ++ targets.map (·, .imported))
            | .error error =>
                loadLoop fuel (canon :: seen) out (withParseError sur maxErrors error source rel diags)
                  queue

/-- `load_with_imports_in`. -/
def loadWithImportsIn (entries extraImported : List PathBuf) (fuel : ℕ) :
    Option (Except (LoadError D) (List TaggedProgram)) :=
  loadLoop sur baseDir libraryRoots maxErrors fuel [] [] []
    (entries.map (·, .entry) ++ extraImported.map (·, .imported))

/-! ### The import closure -/

/-- What a path holds once it is read and parsed. -/
def parsedAt (path : PathBuf) : Option Program :=
  (sur.read path).bind fun source => (sur.parse source).toOption

/-- The paths that the file at a path imports. -/
def importsAt (path : PathBuf) : List PathBuf :=
  ((parsedAt sur path).bind fun program =>
    (resolveImports sur libraryRoots path (displayRel path baseDir) program.fileImports).toOption).getD []

variable (entries extraImported : List PathBuf)

/-- A path of the transitive import closure of the entries and the extra imports. -/
def Imported (path : PathBuf) : Prop :=
  Reaches (importsAt sur baseDir libraryRoots) (entries ++ extraImported) path

/-- Every file of the closure parses, and its imports resolve. -/
def ClosureLoads : Prop :=
  ∀ path, Imported sur baseDir libraryRoots entries extraImported path →
    ∃ program targets, parsedAt sur path = some program ∧
      resolveImports sur libraryRoots path (displayRel path baseDir) program.fileImports = .ok targets

/-- The closure has finitely many files. -/
def ClosureFinite : Prop :=
  ∃ files : Finset PathBuf, ∀ path, Imported sur baseDir libraryRoots entries extraImported path →
    canonicaliseOrPass sur path ∈ files

/-- The program of a path, tagged. -/
def taggedAt (x : PathBuf × Bool) : TaggedProgram :=
  ⟨displayRel x.1 baseDir, if x.2 then .entry else .imported, (parsedAt sur x.1).getD Program.empty⟩

/-- Loading ends and returns each file of the closure once, as an entry exactly when it is the file
of one. -/
def LoadsClosure : Prop :=
  ∃ fuel, ∃ loaded : List (PathBuf × Bool),
    (∀ more ≥ fuel, loadWithImportsIn sur baseDir libraryRoots maxErrors entries extraImported more =
      some (.ok (loaded.map (taggedAt sur baseDir)))) ∧
    (loaded.map fun x => canonicaliseOrPass sur x.1).Nodup ∧
    (∀ file, (∃ x ∈ loaded, canonicaliseOrPass sur x.1 = file) ↔
      ∃ path, Imported sur baseDir libraryRoots entries extraImported path ∧
        canonicaliseOrPass sur path = file) ∧
    ∀ x ∈ loaded, (taggedAt sur baseDir x).kind = .entry ↔
      canonicaliseOrPass sur x.1 ∈ entries.map (canonicaliseOrPass sur)

/-- Paths of the closure that lead to one file see it import the same files. -/
def AliasesAgree : Prop :=
  ∀ path other target, Imported sur baseDir libraryRoots entries extraImported path →
    Imported sur baseDir libraryRoots entries extraImported other →
    canonicaliseOrPass sur path = canonicaliseOrPass sur other →
    target ∈ importsAt sur baseDir libraryRoots path →
    ∃ target' ∈ importsAt sur baseDir libraryRoots other,
      canonicaliseOrPass sur target' = canonicaliseOrPass sur target

end Loading

/-! ### The loop is a walk over the paths, with the files as keys -/

section Closure

variable {E D : Type} {sur : Surroundings E D} {baseDir : PathBuf} {libraryRoots : List PathBuf}
  {maxErrors : ℕ} {entries extraImported : List PathBuf}

/-- The kind under which a path is queued. -/
def queued (x : PathBuf × Bool) : PathBuf × SourceKind := (x.1, if x.2 then .entry else .imported)

theorem importsAt_eq {path : PathBuf} {program : Program} {targets : List PathBuf}
    (hparse : parsedAt sur path = some program)
    (htargets : resolveImports sur libraryRoots path (displayRel path baseDir) program.fileImports =
      .ok targets) : importsAt sur baseDir libraryRoots path = targets := by
  rw [importsAt, hparse, Option.bind_some, htargets]
  rfl

/-- While everything queued loads, the loop expands what the walk expands. -/
theorem loadLoop_eq (fuel : ℕ) : ∀ (seen : List PathBuf) (out : List TaggedProgram)
    (queue : List (PathBuf × Bool)),
    (∀ path, Reaches (importsAt sur baseDir libraryRoots) (queue.map Prod.fst) path →
      ∃ program targets, parsedAt sur path = some program ∧
        resolveImports sur libraryRoots path (displayRel path baseDir) program.fileImports =
          .ok targets) →
    loadLoop sur baseDir libraryRoots maxErrors fuel seen out [] (queue.map queued) =
      (walk (canonicaliseOrPass sur) (importsAt sur baseDir libraryRoots) fuel seen queue).map
        fun loaded => .ok (out ++ loaded.map (taggedAt sur baseDir)) := by
  induction fuel with
  | zero => exact fun _ _ _ _ => rfl
  | succ fuel ih =>
    intro seen out queue hloads
    cases queue with
    | nil =>
      rw [walk, Option.map_some, List.map_nil, List.map_nil, List.append_nil]
      rfl
    | cons x queue =>
      obtain ⟨path, root⟩ := x
      have hrest : ∀ p, Reaches (importsAt sur baseDir libraryRoots) (queue.map Prod.fst) p →
          Reaches (importsAt sur baseDir libraryRoots) (((path, root) :: queue).map Prod.fst) p := by
        rintro p ⟨r, hr, hreach⟩
        exact ⟨r, List.mem_cons_of_mem _ hr, hreach⟩
      rw [List.map_cons, queued, loadLoop, walk]
      by_cases hseen : canonicaliseOrPass sur path ∈ seen
      · rw [if_pos hseen, if_pos hseen]
        exact ih seen out queue fun p hp => hloads p (hrest p hp)
      · obtain ⟨program, targets, hparse, htargets⟩ := hloads path ⟨path, List.mem_cons_self, .refl⟩
        have himports := importsAt_eq hparse htargets
        obtain ⟨source, hread, hsource⟩ := Option.bind_eq_some_iff.mp hparse
        have hok : sur.parse source = .ok program := by
          cases hp : sur.parse source with
          | error e =>
            rw [hp] at hsource
            cases hsource
          | ok q =>
            rw [hp] at hsource
            cases hsource
            rfl
        have hnext : ∀ p, Reaches (importsAt sur baseDir libraryRoots)
            ((queue ++ targets.map (·, false)).map Prod.fst) p →
            Reaches (importsAt sur baseDir libraryRoots) (((path, root) :: queue).map Prod.fst) p := by
          rintro p ⟨r, hr, hreach⟩
          rw [List.map_append, List.mem_append] at hr
          rcases hr with hr | hr
          · exact ⟨r, List.mem_cons_of_mem _ hr, hreach⟩
          · have hstep : Step (importsAt sur baseDir libraryRoots) path r := by
              rw [Step, himports]
              simpa [Function.comp_def] using hr
            exact ⟨path, List.mem_cons_self, .head hstep hreach⟩
        have htagged : (⟨displayRel path baseDir, if root then .entry else .imported, program⟩ :
            TaggedProgram) = taggedAt sur baseDir (path, root) := by
          rw [taggedAt, hparse]
          rfl
        have hqueue : queue.map queued ++ targets.map (·, SourceKind.imported) =
            (queue ++ targets.map (·, false)).map queued := by
          rw [List.map_append, List.map_map]
          rfl
        rw [if_neg hseen, if_neg hseen, hread]
        simp only [hok, htargets, htagged, hqueue, himports]
        rw [ih _ _ _ fun p hp => hloads p (hnext p hp), Option.map_map]
        refine congrArg (Option.map · _) (funext fun loaded => ?_)
        rw [Function.comp_apply, List.map_cons, List.append_assoc, List.singleton_append]

theorem map_fst_roots (roots others : List PathBuf) :
    (roots.map (·, true) ++ others.map (·, false)).map Prod.fst = roots ++ others := by
  rw [List.map_append, List.map_map, List.map_map]
  simp [Function.comp_def]

theorem loadWithImportsIn_eq (hloads : ClosureLoads sur baseDir libraryRoots entries extraImported)
    (fuel : ℕ) :
    loadWithImportsIn sur baseDir libraryRoots maxErrors entries extraImported fuel =
      (walk (canonicaliseOrPass sur) (importsAt sur baseDir libraryRoots) fuel []
        (entries.map (·, true) ++ extraImported.map (·, false))).map
          fun loaded => .ok (loaded.map (taggedAt sur baseDir)) := by
  have hqueue : entries.map (·, SourceKind.entry) ++ extraImported.map (·, SourceKind.imported) =
      (entries.map (·, true) ++ extraImported.map (·, false)).map queued := by
    rw [List.map_append, List.map_map, List.map_map]
    rfl
  rw [loadWithImportsIn, hqueue, loadLoop_eq]
  · rfl
  · rw [map_fst_roots]
    exact hloads

/-- **What is loaded whatever the links are**: of the closure only, each file once, an entry exactly
when it is the file of one, and with every file the file is seen to import, and every one that is
asked for. -/
theorem exists_loaded (hloads : ClosureLoads sur baseDir libraryRoots entries extraImported)
    (hfinite : ClosureFinite sur baseDir libraryRoots entries extraImported) :
    ∃ fuel found,
      walk (canonicaliseOrPass sur) (importsAt sur baseDir libraryRoots) fuel []
        (entries.map (·, true) ++ extraImported.map (·, false)) = some found ∧
      (∀ more ≥ fuel, loadWithImportsIn sur baseDir libraryRoots maxErrors entries extraImported more =
        some (.ok (found.map (taggedAt sur baseDir)))) ∧
      (found.map fun x => canonicaliseOrPass sur x.1).Nodup ∧
      (∀ x ∈ found, Imported sur baseDir libraryRoots entries extraImported x.1) ∧
      ∀ x ∈ found, (taggedAt sur baseDir x).kind = .entry ↔
        canonicaliseOrPass sur x.1 ∈ entries.map (canonicaliseOrPass sur) := by
  have hroots := map_fst_roots entries extraImported
  obtain ⟨files, hfiles⟩ := hfinite
  unfold Imported at hfiles
  rw [← hroots] at hfiles
  obtain ⟨fuel, found, hwalk⟩ := exists_walk _ [] rfl _ hfiles
  have hreaches := walk_reaches hwalk
  rw [hroots] at hreaches
  refine ⟨fuel, found, hwalk, ?_, (walk_nodup hwalk).1, hreaches, ?_⟩
  · intro more hmore
    rw [loadWithImportsIn_eq hloads, walk_mono hmore hwalk, Option.map_some]
  · intro x hx
    rw [← walk_roots entries extraImported hwalk x hx, taggedAt]
    cases x.2 <;> simp

/-- A list of paths that imports do not leave. -/
theorem imported_mem {paths : List PathBuf}
    (hclosed : ∀ p ∈ paths, ∀ q ∈ importsAt sur baseDir libraryRoots p, q ∈ paths)
    (hroots : entries ++ extraImported ⊆ paths) {path : PathBuf}
    (h : Imported sur baseDir libraryRoots entries extraImported path) : path ∈ paths := by
  obtain ⟨r, hr, hreach⟩ := h
  induction hreach with
  | refl => exact hroots hr
  | tail _ hstep ih => exact hclosed _ ih _ hstep

/-- **The import closure is loaded** when paths that lead to one file see it import the same
files. -/
theorem loadsClosure_of_aliasesAgree (hloads : ClosureLoads sur baseDir libraryRoots entries extraImported)
    (hfinite : ClosureFinite sur baseDir libraryRoots entries extraImported)
    (hagree : AliasesAgree sur baseDir libraryRoots entries extraImported) :
    LoadsClosure sur baseDir libraryRoots maxErrors entries extraImported := by
  obtain ⟨fuel, found, hwalk, hload, hnodup, hreaches, hkinds⟩ := exists_loaded hloads hfinite
  have hall := fun {x : PathBuf} => mem_keys_of_reaches (x := x) hwalk
  rw [map_fst_roots] at hall
  refine ⟨fuel, found, hload, hnodup, fun file => ⟨?_, ?_⟩, hkinds⟩
  · rintro ⟨x, hx, rfl⟩
    exact ⟨x.1, hreaches x hx, rfl⟩
  · rintro ⟨path, hpath, rfl⟩
    have hmem := hall (fun x y z hx hy hkey hstep => hagree x y z hx hy hkey hstep) hpath
    obtain ⟨x, hx, hkey⟩ := List.mem_map.mp hmem
    exact ⟨x, hx, hkey⟩

end Closure

/-! ### A library with a link to it -/

/-- The library lies in `/b`, and `/a/lib.cam` is a link to it; each directory has a `part.cam`. -/
def linkedLibrary : Surroundings Unit Unit where
  canonicalize p :=
    if p = ⟨true, ["a", "lib.cam"]⟩ ∨ p = ⟨true, ["b", "lib.cam"]⟩ then some ⟨true, ["b", "lib.cam"]⟩
    else if p = ⟨true, ["a", "part.cam"]⟩ ∨ p = ⟨true, ["b", "part.cam"]⟩ then some p
    else none
  source p := if p = ⟨true, ["b", "lib.cam"]⟩ then some "import \"./part.cam\"" else some ""
  ioMessage _ := "not found"
  var _ := none
  parse source :=
    if source = "" then .ok Program.empty
    else .ok { Program.empty with fileImports := [⟨"./part.cam"⟩] }
  recoverParseDiagnostics _ _ _ := []
  diagnosticFromParseError _ _ _ := ()

def libraryPaths : List PathBuf :=
  [⟨true, ["a", "lib.cam"]⟩, ⟨true, ["b", "lib.cam"]⟩, ⟨true, ["a", "part.cam"]⟩,
    ⟨true, ["b", "part.cam"]⟩]

theorem imported_linkedLibrary {entries : List PathBuf} (hentries : entries ⊆ libraryPaths)
    {path : PathBuf} (h : Imported linkedLibrary ⟨true, []⟩ [] entries [] path) :
    path ∈ libraryPaths :=
  imported_mem (by decide) (by rwa [List.append_nil]) h

theorem closureLoads_linkedLibrary {entries : List PathBuf} (hentries : entries ⊆ libraryPaths) :
    ClosureLoads linkedLibrary ⟨true, []⟩ [] entries [] := by
  intro path hpath
  have hmem := imported_linkedLibrary hentries hpath
  simp only [libraryPaths, List.mem_cons, List.not_mem_nil, or_false] at hmem
  rcases hmem with rfl | rfl | rfl | rfl
  · exact ⟨_, [⟨true, ["a", "part.cam"]⟩], rfl, rfl⟩
  · exact ⟨_, [⟨true, ["b", "part.cam"]⟩], rfl, rfl⟩
  · exact ⟨_, [], rfl, rfl⟩
  · exact ⟨_, [], rfl, rfl⟩

theorem closureFinite_linkedLibrary {entries : List PathBuf} (hentries : entries ⊆ libraryPaths) :
    ClosureFinite linkedLibrary ⟨true, []⟩ [] entries [] :=
  ⟨(libraryPaths.map (canonicaliseOrPass linkedLibrary)).toFinset, fun _ hpath =>
    List.mem_toFinset.mpr (List.mem_map_of_mem (imported_linkedLibrary hentries hpath))⟩

/-- From one directory, the library and its part are loaded. -/
theorem loadsClosure_oneDirectory :
    LoadsClosure linkedLibrary ⟨true, []⟩ [] 20 [⟨true, ["a", "lib.cam"]⟩] [] := by
  have hentries : [(⟨true, ["a", "lib.cam"]⟩ : PathBuf)] ⊆ libraryPaths := by decide
  refine loadsClosure_of_aliasesAgree (closureLoads_linkedLibrary hentries)
    (closureFinite_linkedLibrary hentries) ?_
  -- every file is reached under one path
  have hmem : ∀ p, Imported linkedLibrary ⟨true, []⟩ [] [⟨true, ["a", "lib.cam"]⟩] [] p →
      p ∈ [(⟨true, ["a", "lib.cam"]⟩ : PathBuf), ⟨true, ["a", "part.cam"]⟩] :=
    fun p hp => imported_mem (by decide) (by decide) hp
  have hinj : ∀ p ∈ [(⟨true, ["a", "lib.cam"]⟩ : PathBuf), ⟨true, ["a", "part.cam"]⟩],
      ∀ q ∈ [(⟨true, ["a", "lib.cam"]⟩ : PathBuf), ⟨true, ["a", "part.cam"]⟩],
      canonicaliseOrPass linkedLibrary p = canonicaliseOrPass linkedLibrary q → p = q := by decide
  intro path other target hpath hother hkey htarget
  obtain rfl := hinj path (hmem path hpath) other (hmem other hother) hkey
  exact ⟨target, htarget, rfl⟩

/-- With the library listed under both paths, the part in `/b` is not loaded, although the library in
`/b` imports it. -/
theorem second_path_not_loaded :
    ClosureLoads linkedLibrary ⟨true, []⟩ [] [⟨true, ["a", "lib.cam"]⟩, ⟨true, ["b", "lib.cam"]⟩] [] ∧
      ClosureFinite linkedLibrary ⟨true, []⟩ []
        [⟨true, ["a", "lib.cam"]⟩, ⟨true, ["b", "lib.cam"]⟩] [] ∧
      ¬ LoadsClosure linkedLibrary ⟨true, []⟩ [] 20
        [⟨true, ["a", "lib.cam"]⟩, ⟨true, ["b", "lib.cam"]⟩] [] := by
  have hentries : [(⟨true, ["a", "lib.cam"]⟩ : PathBuf), ⟨true, ["b", "lib.cam"]⟩] ⊆ libraryPaths := by
    decide
  have hloads := closureLoads_linkedLibrary hentries
  refine ⟨hloads, closureFinite_linkedLibrary hentries, ?_⟩
  rintro ⟨fuel, loaded, hload, -, hfiles, -⟩
  have hwalk : walk (canonicaliseOrPass linkedLibrary) (importsAt linkedLibrary ⟨true, []⟩ []) 5 []
      [(⟨true, ["a", "lib.cam"]⟩, true), (⟨true, ["b", "lib.cam"]⟩, true)] =
        some [(⟨true, ["a", "lib.cam"]⟩, true), (⟨true, ["a", "part.cam"]⟩, false)] := by decide
  have hload' := hload (fuel + 5) (Nat.le_add_right _ _)
  rw [loadWithImportsIn_eq hloads] at hload'
  have hlater := walk_mono (Nat.le_add_left 5 fuel) hwalk
  simp only [List.map_cons, List.map_nil, List.append_nil] at hload'
  rw [hlater, Option.map_some, Option.some.injEq, Except.ok.injEq] at hload'
  have hlength : loaded.length = 2 := by
    have hlen := congrArg List.length hload'
    simpa using hlen.symm
  have hpart : ∀ file, file ∈ [(⟨true, ["b", "lib.cam"]⟩ : PathBuf), ⟨true, ["a", "part.cam"]⟩,
      ⟨true, ["b", "part.cam"]⟩] → file ∈ loaded.map fun x => canonicaliseOrPass linkedLibrary x.1 := by
    intro file hfile
    simp only [List.mem_cons, List.not_mem_nil, or_false] at hfile
    refine List.mem_map.mpr ((hfiles file).mpr ?_)
    rcases hfile with rfl | rfl | rfl
    · exact ⟨_, ⟨_, List.mem_cons_self, .refl⟩, rfl⟩
    · exact ⟨⟨true, ["a", "part.cam"]⟩,
        ⟨_, List.mem_cons_self, .single (show _ ∈ importsAt _ _ _ _ by decide)⟩, rfl⟩
    · exact ⟨⟨true, ["b", "part.cam"]⟩, ⟨_, List.mem_cons_of_mem _ List.mem_cons_self,
        .single (show _ ∈ importsAt _ _ _ _ by decide)⟩, rfl⟩
  have hle := (List.Nodup.subperm (by decide) hpart).length_le
  rw [List.length_map, hlength] at hle
  exact absurd hle (by decide)

end CambrianLang.Authored

/-
  **The computed layout against the emitted contract.**

  The computed layout and the Solidity compiler place two lists of variables.  They
  place them alike exactly when the lists hold the same variables: nothing is printed
  that is not counted, and every type takes the bytes it is counted for.
-/
import CambrianLang.Layout.Storage
import CambrianLang.Lib.MapM

namespace CambrianLang.Layout

open Ast Analysis MapM WordPacking

/-- An entry of the computed layout gives a variable its place and size in the contract.  The entry
of a struct has the bytes of its fields, every other entry the bytes in the slot. -/
structure Reports (info : SlotInfo) (v : Variable × ℕ) : Prop where
  name : info.name = v.1.name
  slot : info.slot = v.2 / 32
  offset : info.offset = v.2 % 32
  size : some info.size = if info.kind = .struct then v.1.room.structWidth else some v.1.room.bytes

/-- A counted variable is the declared one, wherever it is placed. -/
structure Describes (c : Counted) (v : Variable) : Prop where
  name : c.name = v.name
  size : some c.size = if c.kind = .struct then v.room.structWidth else some v.room.bytes

theorem reports_entry_iff (x : Counted × ℕ) (v : Variable × ℕ) :
    Reports (Counted.entry x) v ↔ Describes x.1 v.1 ∧ x.2 = v.2 := by
  constructor
  · rintro ⟨hname, hslot, hoffset, hsize⟩
    refine ⟨⟨hname, hsize⟩, ?_⟩
    simp only [Counted.entry] at hslot hoffset
    omega
  · rintro ⟨⟨hname, hsize⟩, heq⟩
    exact ⟨hname, congrArg (· / 32) heq, congrArg (· % 32) heq, hsize⟩

theorem Describes.comparable {c : Counted} {v : Variable} (h : Describes c v) :
    Room.Comparable 32 c.room v.room.room := by
  obtain ⟨name, ty, kind, size, room, counts⟩ := c
  obtain ⟨vname, vroom⟩ := v
  have hsize := h.size
  cases counts with
  | value hpos hle =>
    have hbytes : size = vroom.room.size 32 := Option.some.inj hsize
    change Room.Comparable 32 (.part size) vroom.room
    cases hroom : vroom.room with
    | part b =>
      rw [hroom, Room.size] at hbytes
      subst hbytes
      exact .inl (.refl _)
    | words n =>
      rw [hroom, Room.size] at hbytes
      obtain ⟨rfl, rfl⟩ : n = 1 ∧ size = 32 := by omega
      exact .inl .part_words
  | mapping | dynamicArray =>
    have hbytes : 32 = vroom.room.size 32 := Option.some.inj hsize
    change Room.Comparable 32 (.words 1) vroom.room
    cases hroom : vroom.room with
    | part b =>
      rw [hroom, Room.size] at hbytes
      subst hbytes
      exact .inl .words_part
    | words n => exact .inr ⟨1, n, rfl, rfl⟩
  | struct size slots =>
    cases vroom with
    | plain room => cases hsize
    | struct n width => exact .inr ⟨slots, n, rfl, rfl⟩

/-- Placed from the same byte, two lists of variables agree when they hold the same variables and
all but the last take the same slots. -/
theorem reports_placed_iff (cs : List Counted) (vs : List Variable) :
    List.Forall₂ Reports (placedEntries 0 cs) (assignedStorage vs) ↔
      List.Forall₂ Describes cs vs ∧
        List.Forall₂ (fun c v => Room.Same 32 c.room v.room.room) cs.dropLast vs.dropLast := by
  have hplaces := forall₂_layOut_iff (Nat.zero_lt_succ 31)
    (fun (c : Counted) (v : Variable) (h : Describes c v) => h.comparable) 0 cs vs
  rw [placedEntries, List.forall₂_map_left_iff, assignedStorage]
  simp only [reports_entry_iff]
  exact hplaces

/-! ### Member by member -/

section Flatten

variable {α β γ : Type*} {R : β → γ → Prop}

theorem forall₂_append_iff {xs xs' : List β} {ys ys' : List γ} (h : xs.length ≤ ys.length)
    (h' : xs'.length ≤ ys'.length) :
    List.Forall₂ R (xs ++ xs') (ys ++ ys') ↔ List.Forall₂ R xs ys ∧ List.Forall₂ R xs' ys' := by
  constructor
  · intro hall
    have hlen := hall.length_eq
    rw [List.length_append, List.length_append] at hlen
    have htake := List.forall₂_take_append _ _ _ hall
    have hdrop := List.forall₂_drop_append _ _ _ hall
    rw [List.take_left' (by omega)] at htake
    rw [List.drop_left' (by omega)] at hdrop
    exact ⟨htake, hdrop⟩
  · rintro ⟨hleft, hright⟩
    exact List.rel_append hleft hright

/-- Two lists collected item by item correspond exactly when what every item contributes does,
provided no item contributes more to the first list than to the second. -/
theorem forall₂_flatten_iff {f : α → Option (List β)} {g : α → Option (List γ)} (items : List α)
    (hlen : ∀ a ∈ items, ∀ xs ys, f a = some xs → g a = some ys → xs.length ≤ ys.length) :
    ∀ {xss : List (List β)} {yss : List (List γ)}, items.mapM f = some xss → items.mapM g = some yss →
      (xss.flatten.length ≤ yss.flatten.length ∧
        (List.Forall₂ R xss.flatten yss.flatten ↔
          ∀ a ∈ items, ∀ xs ys, f a = some xs → g a = some ys → List.Forall₂ R xs ys)) := by
  induction items with
  | nil =>
    intro xss yss hf hg
    cases hf
    cases hg
    simp
  | cons a items ih =>
    intro xss yss hf hg
    rw [List.mapM_cons] at hf hg
    obtain ⟨xs, hxs, hf⟩ := Option.bind_eq_some_iff.mp hf
    obtain ⟨xss, hxss, hf⟩ := Option.bind_eq_some_iff.mp hf
    obtain ⟨ys, hys, hg⟩ := Option.bind_eq_some_iff.mp hg
    obtain ⟨yss, hyss, hg⟩ := Option.bind_eq_some_iff.mp hg
    cases hf
    cases hg
    have hhead := hlen a List.mem_cons_self xs ys hxs hys
    obtain ⟨hle, hiff⟩ := ih (fun b hb => hlen b (List.mem_cons_of_mem a hb)) hxss hyss
    rw [List.flatten_cons, List.flatten_cons, List.length_append, List.length_append,
      forall₂_append_iff hhead hle, hiff]
    refine ⟨Nat.add_le_add hhead hle, ?_⟩
    constructor
    · rintro ⟨hxy, hrest⟩ b hb xs' ys' hfb hgb
      rcases List.mem_cons.mp hb with rfl | hb
      · cases hxs.symm.trans hfb
        cases hys.symm.trans hgb
        exact hxy
      · exact hrest b hb xs' ys' hfb hgb
    · intro hall
      exact ⟨hall a List.mem_cons_self xs ys hxs hys,
        fun b hb => hall b (List.mem_cons_of_mem a hb)⟩

end Flatten

section Members

variable (program : Program) (entity : Entity) (sidecars : Sidecars) (fuel : ℕ)

/-- A mapping gets just the `_exists` sidecar that the layout counts for it. -/
def SidecarsCounted (m : Member) (params : List Ty) : Prop :=
  hasExistsSidecar program entity sidecars m.name = transformsUseExists entity.members m.name ∧
    (innerKey params = none ∨ sidecars.innerUsesExists m.name = false) ∧
    sidecars.isIterated m.name = false

/-- The type of a member is counted for the bytes that a variable of its printed type takes. -/
def TypeCounted (m : Member) : Prop :=
  ∀ cs r, countedMember entity program.records program.enums fuel m = some cs →
    solRoom (emittedTypes program entity) fuel .contract (solTypeEntity program entity m.ty) = some r →
    ∀ c ∈ cs, some c.size = if c.kind = .struct then r.structWidth else some r.bytes

/-- The entity prints the variables that the layout counts. -/
structure CountsAll : Prop where
  identity : ∀ m ∈ entity.members, m.isIdentity = true →
    storedIdentity (solTypeEntity program entity m.ty) = false
  mapping : ∀ m ∈ entity.members, m.isIdentity = false → ∀ params, m.ty = .generic "HashMap" params →
    SidecarsCounted program entity sidecars m params
  types : ∀ m ∈ entity.members, m.isIdentity = false → isMappingType m.ty = false →
    TypeCounted program entity fuel m

variable {program entity sidecars fuel}

/-! ### Sidecars -/

/-- Every sidecar is a mapping or an array and takes one slot. -/
theorem solRoom_sidecar {name : String} {params : List Ty} {types : SolTypes} :
    ∀ d ∈ declaredSidecars program entity sidecars name params,
      solRoom types fuel .contract d.2 = some (.plain (.words 1)) := by
  intro d hd
  cases params with
  | nil => cases hd
  | cons key rest =>
    simp only [declaredSidecars, List.mem_append] at hd
    rcases hd with (hd | hd) | hd
    · split_ifs at hd
      · rw [List.mem_singleton.mp hd, solRoom]
      · cases hd
    · split at hd
      · split_ifs at hd
        · rw [List.mem_singleton.mp hd, solRoom]
        · cases hd
      · cases hd
    · split_ifs at hd
      · rcases List.mem_cons.mp hd with rfl | hd
        · rw [solRoom]
        · rw [List.mem_singleton.mp hd, solRoom]
      · cases hd

theorem emitted_sidecars (name : String) (params : List Ty) :
    (declaredSidecars program entity sidecars name params).mapM
        (emittedVariable program entity fuel) =
      some ((declaredSidecars program entity sidecars name params).map fun d =>
        { name := d.1, room := .plain (.words 1) }) := by
  refine mapM_eq_some_map _ fun d hd => ?_
  rw [emittedVariable, solRoom_sidecar d hd]
  rfl

/-- The sidecars behind a mapping are those the layout counts. -/
theorem sidecars_described_iff {m : Member} {params : List Ty} (hparams : params ≠ []) :
    List.Forall₂ Describes
        (if transformsUseExists entity.members m.name then
          [countedMapping (m.name ++ "_exists") none] else [])
        ((declaredSidecars program entity sidecars m.name params).map fun d =>
          { name := d.1, room := .plain (.words 1) }) ↔
      SidecarsCounted program entity sidecars m params := by
  obtain ⟨key, rest, rfl⟩ := List.exists_cons_of_ne_nil hparams
  have himp : transformsUseExists entity.members m.name = true →
      hasExistsSidecar program entity sidecars m.name = true := by
    intro h
    rw [hasExistsSidecar, memberUsesExists_of_transforms h, Bool.or_true]
  have hexists : Describes (countedMapping (m.name ++ "_exists") none)
      { name := m.name ++ "_exists", room := .plain (.words 1) } := ⟨rfl, rfl⟩
  rw [SidecarsCounted, declaredSidecars]
  cases hinner : innerKey (key :: rest) with
  | none =>
    cases hiter : sidecars.isIterated m.name <;>
      cases hused : transformsUseExists entity.members m.name <;>
      cases hhas : hasExistsSidecar program entity sidecars m.name <;>
      simp_all
  | some inner =>
    cases hiter : sidecars.isIterated m.name <;>
      cases hin : sidecars.innerUsesExists m.name <;>
      cases hused : transformsUseExists entity.members m.name <;>
      cases hhas : hasExistsSidecar program entity sidecars m.name <;>
      simp_all

theorem sidecars_length_le {m : Member} {params : List Ty} (hparams : params ≠ []) :
    (if transformsUseExists entity.members m.name then
        [countedMapping (m.name ++ "_exists") none] else []).length ≤
      (declaredSidecars program entity sidecars m.name params).length := by
  obtain ⟨key, rest, rfl⟩ := List.exists_cons_of_ne_nil hparams
  by_cases hused : transformsUseExists entity.members m.name = true
  · have hhas : hasExistsSidecar program entity sidecars m.name = true := by
      rw [hasExistsSidecar, memberUsesExists_of_transforms hused, Bool.or_true]
    rw [if_pos hused, declaredSidecars, if_pos hhas]
    simp
  · rw [if_neg hused]
    exact Nat.zero_le _

/-! ### One member -/

theorem solTypeEntity_hashMap {params : List Ty} {types : SolTypes} :
    solRoom types fuel .contract (solTypeEntity program entity (.generic "HashMap" params)) =
      some (.plain (.words 1)) := by
  rcases params with _ | ⟨k, _ | ⟨v, _ | ⟨x, rest⟩⟩⟩ <;>
    simp [solTypeEntity, solType, solRoom]

theorem eq_hashMap_of_isMappingType {ty : Ty} (h : isMappingType ty = true) :
    ∃ params, ty = .generic "HashMap" params := by
  cases ty with
  | generic name params => exact ⟨params, by rw [beq_iff_eq.mp h]⟩
  | simple | tuple | typedAddress => cases h

theorem packStruct_hashMap {programRecords : List Record} {programEnums : List EnumDecl}
    {name : String} {params : List Ty} {s : ℕ} :
    packStruct entity programRecords programEnums fuel (.generic name params) s = none := rfl

/-- What an identity member contributes. -/
theorem identity_described_iff {m : Member} (hid : m.isIdentity = true) {cs : List Counted}
    {vs : List Variable} (hcs : countedMember entity program.records program.enums fuel m = some cs)
    (hvs : emittedMember program entity sidecars fuel m = some vs) :
    cs.length ≤ vs.length ∧ (List.Forall₂ Describes cs vs ↔
      storedIdentity (solTypeEntity program entity m.ty) = false) := by
  rw [countedMember, if_pos hid] at hcs
  cases hcs
  refine ⟨Nat.zero_le _, ?_⟩
  rw [List.forall₂_nil_left_iff]
  rw [emittedMember, declaredMember, if_pos hid] at hvs
  cases hstored : storedIdentity (solTypeEntity program entity m.ty) with
  | false =>
    rw [hstored] at hvs
    cases hvs
    exact ⟨fun _ => rfl, fun _ => rfl⟩
  | true =>
    rw [hstored, if_pos rfl, List.mapM_cons] at hvs
    obtain ⟨v, -, hvs⟩ := Option.bind_eq_some_iff.mp hvs
    cases hvs
    simp

/-- What a mapping member contributes. -/
theorem mapping_described_iff {m : Member} (hid : m.isIdentity = false) {params : List Ty}
    (hty : m.ty = .generic "HashMap" params) (hparams : params ≠ []) {cs : List Counted}
    {vs : List Variable} (hcs : countedMember entity program.records program.enums fuel m = some cs)
    (hvs : emittedMember program entity sidecars fuel m = some vs) :
    cs.length ≤ vs.length ∧
      (List.Forall₂ Describes cs vs ↔ SidecarsCounted program entity sidecars m params) := by
  have hnot : ¬ m.isIdentity = true := by
    rw [hid]
    exact Bool.false_ne_true
  rw [countedMember, if_neg hnot, hty, packStruct_hashMap] at hcs
  rw [emittedMember, declaredMember, if_neg hnot, hty] at hvs
  simp only [if_pos, List.mapM_cons, emittedVariable, solTypeEntity_hashMap] at hvs
  change (some _).bind _ = _ at hvs
  rw [Option.bind_some] at hvs
  change ((declaredSidecars program entity sidecars m.name params).mapM
    (emittedVariable program entity fuel)).bind _ = _ at hvs
  rw [emitted_sidecars] at hvs
  cases hvs
  cases hcs
  have hhead : Describes (countedMapping m.name (some (.generic "HashMap" params)))
      { name := m.name, room := .plain (.words 1) } := ⟨rfl, rfl⟩
  refine ⟨Nat.succ_le_succ ?_, ?_⟩
  · rw [List.length_map]
    exact sidecars_length_le hparams
  · rw [List.forall₂_cons, sidecars_described_iff hparams]
    exact ⟨And.right, fun h => ⟨hhead, h⟩⟩

theorem counted_single {programRecords : List Record} {programEnums : List EnumDecl} {m : Member}
    (hid : m.isIdentity = false) (hmap : isMappingType m.ty = false) {cs : List Counted}
    (hcs : countedMember entity programRecords programEnums fuel m = some cs) :
    ∃ c, cs = [c] ∧ c.name = m.name := by
  have hnot : ¬ m.isIdentity = true := by
    rw [hid]
    exact Bool.false_ne_true
  have hnotMap : ¬ isMappingType m.ty = true := by
    rw [hmap]
    exact Bool.false_ne_true
  rw [countedMember, if_neg hnot] at hcs
  cases hpack : packStruct entity programRecords programEnums fuel m.ty 0 with
  | some packed =>
    rw [hpack] at hcs
    obtain ⟨d, -, rfl⟩ := Option.map_eq_some_iff.mp hcs
    exact ⟨_, rfl, rfl⟩
  | none =>
    simp only [hpack] at hcs
    rw [if_neg hnotMap] at hcs
    split_ifs at hcs <;> cases hcs <;> exact ⟨_, rfl, rfl⟩

theorem declaredMember_single {m : Member} (hid : m.isIdentity = false)
    (hmap : isMappingType m.ty = false) :
    declaredMember program entity sidecars m =
      [(m.name, solTypeEntity program entity m.ty)] := by
  have hnot : ¬ m.isIdentity = true := by
    rw [hid]
    exact Bool.false_ne_true
  simp only [declaredMember]
  rw [if_neg hnot]
  cases hty : m.ty with
  | generic name params =>
    rw [hty] at hmap
    simp only
    rw [if_neg (by simpa [isMappingType] using hmap)]
  | simple | tuple | typedAddress => rfl

/-- What any other member contributes. -/
theorem type_described_iff {m : Member} (hid : m.isIdentity = false)
    (hmap : isMappingType m.ty = false) {cs : List Counted} {vs : List Variable}
    (hcs : countedMember entity program.records program.enums fuel m = some cs)
    (hvs : emittedMember program entity sidecars fuel m = some vs) :
    cs.length ≤ vs.length ∧
      (List.Forall₂ Describes cs vs ↔ TypeCounted program entity fuel m) := by
  obtain ⟨c, rfl, hname⟩ := counted_single hid hmap hcs
  rw [emittedMember, declaredMember_single hid hmap, List.mapM_cons] at hvs
  obtain ⟨v, hv, hvs⟩ := Option.bind_eq_some_iff.mp hvs
  cases hvs
  obtain ⟨r, hr, rfl⟩ := Option.map_eq_some_iff.mp hv
  refine ⟨le_refl _, ?_⟩
  rw [List.forall₂_cons]
  constructor
  · rintro ⟨⟨-, hsize⟩, -⟩ cs' r' hcs' hr' x hx
    cases hcs.symm.trans hcs'
    cases hr.symm.trans hr'
    rw [List.mem_singleton.mp hx]
    exact hsize
  · intro h
    exact ⟨⟨hname, h _ r hcs hr c List.mem_cons_self⟩, .nil⟩

/-! ### The whole entity -/

theorem counted_length_le (hparsed : ∀ m ∈ entity.members, m.ty ≠ .generic "HashMap" []) {m : Member}
    (hm : m ∈ entity.members) {cs : List Counted} {vs : List Variable}
    (hcs : countedMember entity program.records program.enums fuel m = some cs)
    (hvs : emittedMember program entity sidecars fuel m = some vs) : cs.length ≤ vs.length := by
  by_cases hid : m.isIdentity = true
  · exact (identity_described_iff hid hcs hvs).1
  · have hid' : m.isIdentity = false := Bool.eq_false_iff.mpr hid
    by_cases hmap : isMappingType m.ty = true
    · obtain ⟨params, hty⟩ := eq_hashMap_of_isMappingType hmap
      have hparams : params ≠ [] := by
        rintro rfl
        exact hparsed m hm hty
      exact (mapping_described_iff hid' hty hparams hcs hvs).1
    · exact (type_described_iff hid' (Bool.eq_false_iff.mpr hmap) hcs hvs).1

/-- Every member contributes the variables that the layout counts for it exactly when the entity
prints what the layout counts. -/
theorem described_members_iff (hparsed : ∀ m ∈ entity.members, m.ty ≠ .generic "HashMap" [])
    {css : List (List Counted)} {vss : List (List Variable)}
    (hcss : entity.members.mapM (countedMember entity program.records program.enums fuel) = some css)
    (hvss : entity.members.mapM (emittedMember program entity sidecars fuel) = some vss) :
    (∀ m ∈ entity.members, ∀ cs vs,
        countedMember entity program.records program.enums fuel m = some cs →
        emittedMember program entity sidecars fuel m = some vs → List.Forall₂ Describes cs vs) ↔
      CountsAll program entity sidecars fuel := by
  constructor
  · intro h
    refine ⟨fun m hm hid => ?_, fun m hm hid params hty => ?_, fun m hm hid hmap => ?_⟩
    · obtain ⟨cs, -, hcs⟩ := (mem_of_mapM hcss).1 m hm
      obtain ⟨vs, -, hvs⟩ := (mem_of_mapM hvss).1 m hm
      exact (identity_described_iff hid hcs hvs).2.mp (h m hm cs vs hcs hvs)
    · obtain ⟨cs, -, hcs⟩ := (mem_of_mapM hcss).1 m hm
      obtain ⟨vs, -, hvs⟩ := (mem_of_mapM hvss).1 m hm
      have hparams : params ≠ [] := by
        rintro rfl
        exact hparsed m hm hty
      exact (mapping_described_iff hid hty hparams hcs hvs).2.mp (h m hm cs vs hcs hvs)
    · obtain ⟨cs, -, hcs⟩ := (mem_of_mapM hcss).1 m hm
      obtain ⟨vs, -, hvs⟩ := (mem_of_mapM hvss).1 m hm
      exact (type_described_iff hid hmap hcs hvs).2.mp (h m hm cs vs hcs hvs)
  · rintro ⟨hidentity, hmapping, htypes⟩ m hm cs vs hcs hvs
    by_cases hid : m.isIdentity = true
    · exact (identity_described_iff hid hcs hvs).2.mpr (hidentity m hm hid)
    · have hid' : m.isIdentity = false := Bool.eq_false_iff.mpr hid
      by_cases hmap : isMappingType m.ty = true
      · obtain ⟨params, hty⟩ := eq_hashMap_of_isMappingType hmap
        have hparams : params ≠ [] := by
          rintro rfl
          exact hparsed m hm hty
        exact (mapping_described_iff hid' hty hparams hcs hvs).2.mpr (hmapping m hm hid' params hty)
      · have hmap' : isMappingType m.ty = false := Bool.eq_false_iff.mpr hmap
        exact (type_described_iff hid' hmap' hcs hvs).2.mpr (htypes m hm hid' hmap')

theorem described_initialized (deterministic : Bool) :
    List.Forall₂ Describes (initializedCounted entity deterministic)
      (initializedVariable entity deterministic) := by
  rw [initializedCounted, initializedVariable]
  split
  · exact .cons ⟨rfl, rfl⟩ .nil
  · exact .nil

end Members

/-- Every counted variable but the last takes as many slots in the contract as it is counted for. -/
def SlotsCounted (program : Program) (entity : Entity) (deterministic : Bool) (fuel : ℕ)
    (vars : List Variable) : Prop :=
  ∀ counted, countedVariables entity deterministic program.records program.enums fuel = some counted →
    List.Forall₂ (fun c v => Room.Same 32 c.room v.room.room) counted.dropLast vars.dropLast

def plainMember (name : String) (ty : Ty) (isIdentity : Bool) : Member :=
  { name := name, ty := ty, isIdentity := isIdentity, defaultValue := none, transforms := [] }

def bareProgram : Program :=
  { imports := [], pureFns := [], typeAliases := [], records := [], enums := [], entities := [],
    externEntities := [], libraries := [] }

/-- An owner, a counter that shares its slot, balances and a total. -/
def ledger : Entity :=
  { syntheticEntity "Ledger" with
    members := [plainMember "owner" (.simple "address") true,
      plainMember "m_admin" (.simple "address") false, plainMember "m_count" (.simple "u64") false,
      plainMember "m_balances" (.generic "HashMap" [.simple "address", .simple "U256"]) false,
      plainMember "m_total" (.simple "U256") false] }

def noSidecars : Sidecars := { innerUsesExists := fun _ => false, isIterated := fun _ => false }

def ledgerVariables : List Variable :=
  [{ name := "m_admin", room := .plain (.part 20) }, { name := "m_count", room := .plain (.part 8) },
    { name := "m_balances", room := .plain (.words 1) },
    { name := "m_total", room := .plain (.part 32) }]

/-- A counter that keeps its label. -/
def labelled : Entity :=
  { syntheticEntity "Labelled" with
    members := [plainMember "label" (.simple "String") true,
      plainMember "m_count" (.simple "U256") false] }

end CambrianLang.Layout

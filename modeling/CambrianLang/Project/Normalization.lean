/-
  **Normalisation** (`normalize_type`, `normalize_program_types` in `ast.rs`, followed
  by `apply_using_rewrites`).

  A merged program is normalised, and in single-file mode the result is normalised
  again.  Three passes are involved: the literals, the types and the sugar.  Each is
  done after one round, and none undoes another.
-/
import CambrianLang.Project.UsingRewrite

namespace CambrianLang.Authored

open Ast BottomUp

/-! ### Types -/

mutual
/-- `normalize_type`. -/
def normalizeType : Ty → Ty
  | .generic name params =>
    match name, params with
    | "Address", [.simple entity] => .typedAddress entity
    | _, _ => .generic name (normalizeTypes params)
  | .tuple elems => .tuple (normalizeTypes elems)
  | ty => ty
def normalizeTypes : List Ty → List Ty
  | [] => []
  | ty :: tys => normalizeType ty :: normalizeTypes tys
end

theorem normalizeTypes_eq (tys : List Ty) : normalizeTypes tys = tys.map normalizeType := by
  induction tys with
  | nil => rfl
  | cons ty tys ih => rw [normalizeTypes, ih, List.map_cons]

/-- An entity's address, in the spelling that is normalised. -/
def IsEntityAddress (name : String) (params : List Ty) : Prop :=
  name = "Address" ∧ ∃ entity, params = [.simple entity]

theorem normalizeType_generic {name : String} {params : List Ty}
    (h : ¬ IsEntityAddress name params) :
    normalizeType (.generic name params) = .generic name (normalizeTypes params) := by
  rw [normalizeType]
  intro entity hname hparams
  exact h ⟨hname, entity, hparams⟩

/-- Only a simple type becomes a simple type. -/
theorem eq_simple_of_normalizeType {ty : Ty} {name : String}
    (h : normalizeType ty = .simple name) : ty = .simple name := by
  cases ty with
  | simple => exact h
  | generic m params =>
    by_cases haddr : IsEntityAddress m params
    · obtain ⟨rfl, entity, rfl⟩ := haddr
      exact Ty.noConfusion h
    · rw [normalizeType_generic haddr] at h
      exact Ty.noConfusion h
  | tuple => exact Ty.noConfusion h
  | typedAddress => exact Ty.noConfusion h

/-- What is left generic is not an entity's address afterwards. -/
theorem not_isEntityAddress_normalizeTypes {name : String} {params : List Ty}
    (h : ¬ IsEntityAddress name params) : ¬ IsEntityAddress name (normalizeTypes params) := by
  rintro ⟨hname, entity, heq⟩
  rw [normalizeTypes_eq, List.map_eq_singleton_iff] at heq
  obtain ⟨ty, rfl, hty⟩ := heq
  rw [eq_simple_of_normalizeType hty] at h
  exact h ⟨hname, entity, rfl⟩

mutual
theorem normalizeType_idem : ∀ ty : Ty, normalizeType (normalizeType ty) = normalizeType ty
  | .simple _ => rfl
  | .typedAddress _ => rfl
  | .tuple elems => by
    simp only [normalizeType, normalizeTypes_idem elems]
  | .generic name params => by
    have hparams := normalizeTypes_idem params
    by_cases haddr : IsEntityAddress name params
    · obtain ⟨rfl, entity, rfl⟩ := haddr
      rfl
    · rw [normalizeType_generic haddr,
        normalizeType_generic (not_isEntityAddress_normalizeTypes haddr), hparams]
theorem normalizeTypes_idem : ∀ tys : List Ty,
    normalizeTypes (normalizeTypes tys) = normalizeTypes tys
  | [] => rfl
  | ty :: tys => by
    simp only [normalizeTypes, normalizeType_idem ty, normalizeTypes_idem tys]
end

/-! ### Declarations -/

def normalizeParam (p : Param) : Param := { p with ty := normalizeType p.ty }

def normalizePureFn (fn : PureFn) : PureFn :=
  { fn with
    returnType := normalizeType fn.returnType
    params := fn.params.map normalizeParam }

def normalizeRecord (rec : Record) : Record :=
  { rec with fields := rec.fields.map fun f => { f with ty := normalizeType f.ty } }

def normalizeEnum (en : EnumDecl) : EnumDecl :=
  { en with variants := en.variants.map fun v => { v with fields := v.fields.map normalizeType } }

def normalizeAlias (ta : TypeAlias) : TypeAlias := { ta with ty := normalizeType ta.ty }

def normalizeConst (c : Const) : Const := { c with ty := normalizeType c.ty }

def normalizeMember (m : Member) : Member := { m with ty := normalizeType m.ty }

def normalizeRoute (route : Route) : Route :=
  { route with
    params := route.params.map normalizeParam
    returnType := route.returnType.map normalizeType }

def normalizeMacro (m : Macro) : Macro :=
  { m with
    params := m.params.map normalizeParam
    returnType := normalizeType m.returnType }

def normalizeEntity (entity : Contract) : Contract :=
  { entity with
    members := entity.members.map normalizeMember
    routes := entity.routes.map normalizeRoute
    macros := entity.macros.map normalizeMacro
    records := entity.records.map normalizeRecord
    enums := entity.enums.map normalizeEnum
    constants := entity.constants.map normalizeConst
    typeAliases := entity.typeAliases.map normalizeAlias }

def normalizeExternRoute (route : ExternRoute) : ExternRoute :=
  { route with
    params := route.params.map normalizeParam
    returnType := route.returnType.map normalizeType }

def normalizeExternEntity (ext : ExternEntity) : ExternEntity :=
  { ext with routes := ext.routes.map normalizeExternRoute }

def normalizeLibrary (lib : LibraryDecl) : LibraryDecl :=
  { lib with
    pureFns := lib.pureFns.map normalizePureFn
    constants := lib.constants.map normalizeConst
    typeAliases := lib.typeAliases.map normalizeAlias }

def normalizeUsing (ud : UsingDecl) : UsingDecl :=
  { ud with targetType := normalizeType ud.targetType }

/-- What `normalize_program_types` does after the literals. -/
def normalizeDeclaredTypes (p : Program) : Program :=
  { p with
    pureFns := p.pureFns.map normalizePureFn
    records := p.records.map normalizeRecord
    enums := p.enums.map normalizeEnum
    typeAliases := p.typeAliases.map normalizeAlias
    entities := p.entities.map normalizeEntity
    externEntities := p.externEntities.map normalizeExternEntity
    libraries := p.libraries.map normalizeLibrary
    usingDecls := p.usingDecls.map normalizeUsing }

/-- `normalize_program_types`. -/
def normalizeProgramTypes (p : Program) : Program :=
  normalizeDeclaredTypes (desugarPrimitiveTypeLiterals p)

/-- The pipeline of the loader. -/
def normalizeProgram (p : Program) : Program := applyUsingRewrites (normalizeProgramTypes p)

/-! ### Each pass is done after one round -/

theorem normalizeParam_idem (p : Param) : normalizeParam (normalizeParam p) = normalizeParam p := by
  simp only [normalizeParam, normalizeType_idem]

theorem normalizePureFn_idem (fn : PureFn) :
    normalizePureFn (normalizePureFn fn) = normalizePureFn fn := by
  simp [normalizePureFn, normalizeType_idem, normalizeParam_idem]

theorem normalizeRecord_idem (rec : Record) :
    normalizeRecord (normalizeRecord rec) = normalizeRecord rec := by
  simp [normalizeRecord, normalizeType_idem]

theorem normalizeEnum_idem (en : EnumDecl) :
    normalizeEnum (normalizeEnum en) = normalizeEnum en := by
  simp [normalizeEnum, normalizeType_idem]

theorem normalizeAlias_idem (ta : TypeAlias) :
    normalizeAlias (normalizeAlias ta) = normalizeAlias ta := by
  simp only [normalizeAlias, normalizeType_idem]

theorem normalizeConst_idem (c : Const) : normalizeConst (normalizeConst c) = normalizeConst c := by
  simp only [normalizeConst, normalizeType_idem]

theorem normalizeExternEntity_idem (ext : ExternEntity) :
    normalizeExternEntity (normalizeExternEntity ext) = normalizeExternEntity ext := by
  simp [normalizeExternEntity, normalizeExternRoute, normalizeParam_idem, Option.map_map,
    Function.comp_def, normalizeType_idem]

theorem normalizeLibrary_idem (lib : LibraryDecl) :
    normalizeLibrary (normalizeLibrary lib) = normalizeLibrary lib := by
  simp [normalizeLibrary, normalizePureFn_idem, normalizeConst_idem, normalizeAlias_idem]

theorem normalizeUsing_idem (ud : UsingDecl) :
    normalizeUsing (normalizeUsing ud) = normalizeUsing ud := by
  simp only [normalizeUsing, normalizeType_idem]

theorem normalizeEntity_idem (entity : Contract) :
    normalizeEntity (normalizeEntity entity) = normalizeEntity entity := by
  simp [normalizeEntity, normalizeMember, normalizeRoute, normalizeMacro, normalizeConst_idem,
    normalizeParam_idem, normalizeType_idem, normalizeRecord_idem, normalizeEnum_idem,
    normalizeAlias_idem, Option.map_map, Function.comp_def]

theorem normalizeDeclaredTypes_idem (p : Program) :
    normalizeDeclaredTypes (normalizeDeclaredTypes p) = normalizeDeclaredTypes p := by
  simp [normalizeDeclaredTypes, normalizePureFn_idem, normalizeRecord_idem, normalizeEnum_idem,
    normalizeAlias_idem, normalizeEntity_idem, normalizeExternEntity_idem, normalizeLibrary_idem,
    normalizeUsing_idem]

variable (tables : UsingTables)

/-- Rewriting sugar leaves the types of a normalised entity normalised. -/
theorem normalizeEntity_rewrite (snapshot entity : Contract) :
    normalizeEntity (rewriteEntityIn tables snapshot (normalizeEntity entity)) =
      rewriteEntityIn tables snapshot (normalizeEntity entity) := by
  simp [normalizeEntity, rewriteEntityIn, normalizeMember, rewriteMember, normalizeRoute,
    rewriteRoute, normalizeMacro, mapMacro, normalizeConst, mapConst, normalizeParam_idem,
    normalizeType_idem, normalizeRecord_idem, normalizeEnum_idem, normalizeAlias_idem,
    Option.map_map, Function.comp_def]

/-- One round over the literals of an expression. -/
abbrev desugarExpr : Expr → Expr := mapExpr desugarPrimitiveTypeLiteral

theorem desugarExpr_idem : desugarExpr ∘ desugarExpr = desugarExpr :=
  funext fun e => mapExpr_of_literalFree (literalFree_mapExpr e)

theorem desugarProgram_idem (p : Program) :
    desugarPrimitiveTypeLiterals (desugarPrimitiveTypeLiterals p) =
      desugarPrimitiveTypeLiterals p := by
  simp only [desugarPrimitiveTypeLiterals, mapProgramExprs, mapProgram_mapProgram,
    desugarExpr_idem]

/-- The walk and the types are about different fields. -/
theorem normalizeDeclaredTypes_desugar (p : Program) :
    normalizeDeclaredTypes (desugarPrimitiveTypeLiterals p) =
      desugarPrimitiveTypeLiterals (normalizeDeclaredTypes p) := by
  simp [normalizeDeclaredTypes, desugarPrimitiveTypeLiterals, mapProgramExprs, mapProgram,
    normalizePureFn, mapPureFn, normalizeEntity, mapEntity, normalizeMember, mapMember,
    normalizeRoute, mapRoute, normalizeMacro, mapMacro, normalizeConst, mapConst, normalizeLibrary,
    mapLibrary]

variable {p : Program} {scope : Scope}

theorem literal_of_mapChildren {g : Expr → Expr} {e : Expr}
    (h : PrimitiveLiteral (mapChildren g e)) : PrimitiveLiteral e := by
  obtain ⟨ty, name, heq, hlit⟩ := h
  cases e with
  | enumVariant => exact ⟨ty, name, heq, hlit⟩
  | _ => exact Expr.noConfusion heq

/-- Rewriting sugar brings no literal back. -/
theorem literalFree_rewriteExpr {e : Expr} (h : LiteralFree e) :
    LiteralFree (rewriteExpr (usingTables p) scope e) := by
  refine mapExpr_rewrites.everywhere_kept (fun a ha hlit => ha (literal_of_mapChildren hlit)) ?_ h
  intro a ha
  rcases rewriteCall_cases p scope a with ⟨recv, method, args, rfl, heq⟩ | ⟨-, heq⟩
  · rw [heq]
    refine Layered.everywhere_iff.mpr ⟨?_, fun b hb => ha.child hb⟩
    rintro ⟨_, _, hcall, -⟩
    exact Expr.noConfusion hcall
  · rwa [heq]

theorem desugarExpr_rewrite (p : Program) (scope : Scope) :
    desugarExpr ∘ rewriteExpr (usingTables p) scope ∘ desugarExpr =
      rewriteExpr (usingTables p) scope ∘ desugarExpr :=
  funext fun e => mapExpr_of_literalFree (literalFree_rewriteExpr (literalFree_mapExpr e))

theorem rewriteExpr_idem (p : Program) (scope : Scope) :
    rewriteExpr (usingTables p) scope ∘ rewriteExpr (usingTables p) scope =
      rewriteExpr (usingTables p) scope :=
  funext fun e => rewriteExpr_of_sugarFree (sugarFree_rewriteExpr p scope e)

/-! ### No pass undoes another -/

theorem mapRoute_rewrite (snapshot : Contract) (route : Route) :
    mapRoute desugarExpr (rewriteRoute (usingTables p) snapshot (mapRoute desugarExpr route)) =
      rewriteRoute (usingTables p) snapshot (mapRoute desugarExpr route) := by
  have hdone := congrFun desugarExpr_idem
  have hkept := fun params => congrFun (desugarExpr_rewrite p (Contract.scope snapshot params))
  simp only [Function.comp_def] at hdone hkept
  simp [mapRoute, rewriteRoute, mapFromClause, rewriteFromClause, mapWhereClause,
    mapRouteBody_mapRouteBody, Function.comp_def, Option.map_map, hdone, hkept]

theorem mapMember_rewrite (snapshot : Contract) (m : Member) :
    mapMember desugarExpr (rewriteMember (usingTables p) snapshot (mapMember desugarExpr m)) =
      rewriteMember (usingTables p) snapshot (mapMember desugarExpr m) := by
  have hkept := fun params => congrFun (desugarExpr_rewrite p (Contract.scope snapshot params))
  simp only [Function.comp_def] at hkept
  simp [mapMember, rewriteMember, mapTransform, Function.comp_def, Option.map_map, hkept]

theorem mapEntity_rewrite (snapshot entity : Contract) :
    mapEntity desugarExpr (rewriteEntityIn (usingTables p) snapshot (mapEntity desugarExpr entity)) =
      rewriteEntityIn (usingTables p) snapshot (mapEntity desugarExpr entity) := by
  have hkept := fun params => congrFun (desugarExpr_rewrite p (Contract.scope snapshot params))
  simp only [Function.comp_def] at hkept
  simp [mapEntity, rewriteEntityIn, mapRoute_rewrite, mapMember_rewrite, mapMacro, mapConst, hkept]

theorem rewriteRoute_idem (snapshot : Contract) (route : Route) :
    rewriteRoute (usingTables p) snapshot (rewriteRoute (usingTables p) snapshot route) =
      rewriteRoute (usingTables p) snapshot route := by
  have hdone := fun params => congrFun (rewriteExpr_idem p (Contract.scope snapshot params))
  simp only [Function.comp_def] at hdone
  simp [rewriteRoute, rewriteFromClause, mapWhereClause, mapRouteBody_mapRouteBody,
    Function.comp_def, hdone]

theorem rewriteMember_idem (snapshot : Contract) (m : Member) :
    rewriteMember (usingTables p) snapshot (rewriteMember (usingTables p) snapshot m) =
      rewriteMember (usingTables p) snapshot m := by
  have hdone := fun params => congrFun (rewriteExpr_idem p (Contract.scope snapshot params))
  simp only [Function.comp_def] at hdone
  simp only [rewriteMember, mapTransform, List.map_map, Option.map_map, Function.comp_def, hdone,
    Member.mk.injEq, true_and]
  exact List.map_congr_left fun t _ =>
    congrArg (fun body => { t with body }) (hdone (transformParams snapshot t) t.body)

/-- The rewrite of an entity reads the snapshot for the types of names only. -/
theorem rewriteEntityIn_congr {S S' : Contract}
    (hscope : ∀ params, Contract.scope S params = Contract.scope S' params)
    (hparams : ∀ t, transformParams S t = transformParams S' t) (entity : Contract) :
    rewriteEntityIn tables S entity = rewriteEntityIn tables S' entity := by
  have hroute : rewriteRoute tables S = rewriteRoute tables S' := by
    funext route
    simp only [rewriteRoute, hscope]
  have hmember : rewriteMember tables S = rewriteMember tables S' := by
    funext m
    simp only [rewriteMember, hscope, hparams]
  simp only [rewriteEntityIn, hroute, hmember, hscope]

theorem rewriteEntity_idem (entity : Contract) :
    rewriteEntity (usingTables p) (rewriteEntity (usingTables p) entity) =
      rewriteEntity (usingTables p) entity := by
  have hsnapshot : rewriteEntity (usingTables p) (rewriteEntity (usingTables p) entity) =
      rewriteEntityIn (usingTables p) entity (rewriteEntity (usingTables p) entity) :=
    rewriteEntityIn_congr _ (contractScope_rewrite _ entity entity)
      (fun t => transformParams_rewrite _ entity entity t id) _
  have hdone := fun params => congrFun (rewriteExpr_idem p (Contract.scope entity params))
  simp only [Function.comp_def] at hdone
  rw [hsnapshot]
  simp [rewriteEntity, rewriteEntityIn, rewriteRoute_idem, rewriteMember_idem, mapMacro, mapConst,
    hdone]

/-! ### Programs -/

/-- The pass over sugar looks at nothing that it changes. -/
theorem applyUsingRewrites_cases (p : Program) :
    (applyUsingRewrites p = p) ∨
      (applyUsingRewrites p =
          { p with entities := p.entities.map (rewriteEntity (usingTables p)) } ∧
        ∀ es, applyUsingRewrites { p with entities := es } =
          { p with entities := es.map (rewriteEntity (usingTables p)) }) := by
  by_cases h : p.usingDecls.isEmpty || (byMethod p).isEmpty
  · exact Or.inl (if_pos h)
  · exact Or.inr ⟨if_neg h, fun es => if_neg h⟩

theorem applyUsingRewrites_idem (p : Program) :
    applyUsingRewrites (applyUsingRewrites p) = applyUsingRewrites p := by
  rcases applyUsingRewrites_cases p with hsame | ⟨heq, hagain⟩
  · rw [hsame, hsame]
  · rw [heq, hagain]
    simp [rewriteEntity_idem]

/-- After the literals are gone, rewriting sugar leaves none. -/
theorem desugar_applyUsingRewrites (p : Program) :
    desugarPrimitiveTypeLiterals (applyUsingRewrites (desugarPrimitiveTypeLiterals p)) =
      applyUsingRewrites (desugarPrimitiveTypeLiterals p) := by
  rcases applyUsingRewrites_cases (desugarPrimitiveTypeLiterals p) with hsame | ⟨heq, -⟩
  · rw [hsame, desugarProgram_idem]
  · rw [heq]
    have hentities : ∀ es, desugarPrimitiveTypeLiterals
        { desugarPrimitiveTypeLiterals p with entities := es } =
          { desugarPrimitiveTypeLiterals (desugarPrimitiveTypeLiterals p) with
            entities := es.map (mapEntity desugarExpr) } := fun _ => rfl
    have hfixed : ∀ entity ∈ (desugarPrimitiveTypeLiterals p).entities.map
        (rewriteEntity (usingTables (desugarPrimitiveTypeLiterals p))),
          mapEntity desugarExpr entity = entity := by
      intro entity hentity
      obtain ⟨e, he, rfl⟩ := List.mem_map.mp hentity
      obtain ⟨e, -, rfl⟩ := List.mem_map.mp he
      exact mapEntity_rewrite _ e
    rw [hentities, map_fixed hfixed, desugarProgram_idem]

/-- After the types are normalised, rewriting sugar leaves them so. -/
theorem normalize_applyUsingRewrites (p : Program) :
    normalizeDeclaredTypes (applyUsingRewrites (normalizeDeclaredTypes p)) =
      applyUsingRewrites (normalizeDeclaredTypes p) := by
  rcases applyUsingRewrites_cases (normalizeDeclaredTypes p) with hsame | ⟨heq, -⟩
  · rw [hsame, normalizeDeclaredTypes_idem]
  · rw [heq]
    have hentities : ∀ es, normalizeDeclaredTypes { normalizeDeclaredTypes p with entities := es } =
        { normalizeDeclaredTypes (normalizeDeclaredTypes p) with
          entities := es.map normalizeEntity } := fun _ => rfl
    have hfixed : ∀ entity ∈ (normalizeDeclaredTypes p).entities.map
        (rewriteEntity (usingTables (normalizeDeclaredTypes p))),
          normalizeEntity entity = entity := by
      intro entity hentity
      obtain ⟨e, he, rfl⟩ := List.mem_map.mp hentity
      obtain ⟨e, -, rfl⟩ := List.mem_map.mp he
      exact normalizeEntity_rewrite _ _ e
    rw [hentities, map_fixed hfixed, normalizeDeclaredTypes_idem]

/-- **Normalisation is idempotent.** -/
theorem normalizeProgram_idem (p : Program) :
    normalizeProgram (normalizeProgram p) = normalizeProgram p := by
  have hliterals : desugarPrimitiveTypeLiterals (normalizeProgram p) = normalizeProgram p := by
    rw [normalizeProgram, normalizeProgramTypes, normalizeDeclaredTypes_desugar]
    exact desugar_applyUsingRewrites (normalizeDeclaredTypes p)
  have htypes : normalizeDeclaredTypes (normalizeProgram p) = normalizeProgram p :=
    normalize_applyUsingRewrites (desugarPrimitiveTypeLiterals p)
  have hsugar : applyUsingRewrites (normalizeProgram p) = normalizeProgram p :=
    applyUsingRewrites_idem (normalizeProgramTypes p)
  calc normalizeProgram (normalizeProgram p)
      = applyUsingRewrites (normalizeDeclaredTypes
          (desugarPrimitiveTypeLiterals (normalizeProgram p))) := rfl
    _ = applyUsingRewrites (normalizeDeclaredTypes (normalizeProgram p)) := by rw [hliterals]
    _ = applyUsingRewrites (normalizeProgram p) := by rw [htypes]
    _ = normalizeProgram p := hsugar

end CambrianLang.Authored

import ScriptAnalysis.Proofs.Scope.Repeated

/-!
# Names that are declared again in classes and scripts

A walk over a known class tells what its members tell, and a walk over a script what its statements
and its classes tell: once of each scope that it opens.
-/

namespace ScriptAnalysis

/-! ### Classes -/

/-- What is reported on a walk over the classes `ms`. -/
def ToldClasses (input : ResolveInput) (r : Resolution) (ms : List NodeId) (s s' : WalkState) :
    Prop :=
  ∃ scopes, input.ast.OpensClasses r.classes ms scopes ∧
    s.resolution.Tells (scopes.flatMap (Surround.again input.ast)) s'.resolution

namespace ToldClasses

variable {input : ResolveInput} {r : Resolution} {m : NodeId} {ms : List NodeId}
  {s s₁ s₂ : WalkState}

theorem nil (s : WalkState) : ToldClasses input r [] s s := ⟨[], .nil, .refl s.resolution⟩

theorem cons (h : ToldClasses input r [m] s s₁) (k : ToldClasses input r ms s₁ s₂) :
    ToldClasses input r (m :: ms) s s₂ := by
  obtain ⟨scopes, hopens, htold⟩ := h
  obtain ⟨scopes', hopens', htold'⟩ := k
  refine ⟨scopes ++ scopes', .cons hopens hopens', ?_⟩
  rw [List.flatMap_append]
  exact htold.trans htold'

theorem before (h : s.resolution.Tells [] s₁.resolution) (k : ToldClasses input r ms s₁ s₂) :
    ToldClasses input r ms s s₂ := by
  obtain ⟨scopes, hopens, htold⟩ := k
  exact ⟨scopes, hopens, h.before htold⟩

/-- A known class tells what its members tell, outside all scopes. -/
theorem known {decl : ClassDecl} {c : ClassSummary}
    (hdata : input.ast.data? m = some (.classDecl decl))
    (hknown : r.classes.find? (·.decl == m) = some c)
    (h : Told input [] (decl.fields ++ decl.methods) s s₁)
    (k : ToldClasses input r decl.inner s₁ s₂) : ToldClasses input r [m] s s₂ := by
  obtain ⟨scopes, hopens, htold⟩ := h
  obtain ⟨scopes', hopens', htold'⟩ := k
  refine ⟨scopes ++ scopes', .known hdata hknown hopens hopens', ?_⟩
  rw [List.flatMap_append]
  exact htold.trans htold'

end ToldClasses

namespace Walk

variable {input : ResolveInput} {r : Resolution} {v : Visitors} {depth : Nat} {owner : String}
  {a c : ParsePoint} {m k : Nat} {s : WalkState} {decl : ClassDecl} {cl : ClassSummary}
  {b d : ParsePoint}

/-- A field is no variable of a scope. -/
theorem tells_walkField (hv : VisitorsTell input r v depth) (hk : k ≤ depth)
    (hlaid : Laid input.ast a [k] c) (hvar : input.ast.IsVar k) (hle : c.ids ≤ m)
    (hs : At input r owner (inClass m) s) (known : List String) :
    (walkField input v known k).Leads s fun _ s' => Told input [] [k] s s' := by
  obtain ⟨decl, var, hdata, hdecl⟩ := hvar
  obtain ⟨hlaidDecl, hlt⟩ := hlaid.part hdata (k := decl) (by simp [NodeData.parts])
  have hsited : ∀ ⦃b d⦄, Allots input.ast a b d decl (.varDeclExpr var) c →
      Sited input.ast b d var.init.toList (inClass m) := fun b d h =>
    sited_inClass (directVars_init h)
      (Nat.le_trans h.le_id (Nat.le_trans (Nat.le_of_lt h.id_lt) hle))
  have hinit : ∀ init ∈ var.init, Tells input r (v.expression init) [init] := by
    intro init hinit
    obtain ⟨_, _, _, _, -, -, hm, -⟩ := hlaidDecl.of_data hdecl
    have hlt' := (hlaidDecl.part hdecl (k := init) (by simpa [NodeData.parts] using hinit)).2
    exact hv.tellExpression init (Nat.lt_of_lt_of_le (Nat.lt_trans hlt' hlt) hk)
      (hm.formed init hinit)
  unfold walkField
  rw [varDecl?_of_stmt hlaid hdata hdecl, hdata]
  refine leads_bind.mpr (((mute_noteBlock k).along (leads_noteBlock k s)).mono ?_)
  rintro _ s₁ ⟨⟨hs₁, -⟩, h₁⟩
  refine leads_bind.mpr ((tells_checkVar hlaidDecl hdecl hsited hinit
    (hs.kept hs₁ fun _ _ => by simp)).mono fun _ s₂ h₂ => ?_)
  have hmute : Mute (if var.name.isEmpty then pure known
      else if known.contains var.name then do
        report s!"Field '{var.name}' already declared" (nameSpan var.name var.nameOffset)
        pure known
      else pure (var.name :: known)) := by
    refine fun r => reports_ite (fun _ => reports_pure _) fun _ => reports_ite (fun _ => ?_)
      fun _ => reports_pure _
    exact reports_bind (reports_report (not_isAgain (by simp [toString, String.toList_append])
      (by simp [toString, String.toList_append]) _)) fun _ => reports_pure _
  refine (hmute.leads s₂).mono fun _ s₃ h₃ => ?_
  obtain ⟨scopes, hopens, h₂⟩ := h₂
  rw [headRepeats_eq_nil (by rw [List.flatMap_singleton, (opens?_of_varDeclExpr hdecl).2])] at h₂
  exact ⟨scopes, .part hdata (by simp [Ast.opens?, hdata]) (by simp) hopens,
    (h₁.before h₂).after h₃⟩

/-- Visitors tell of the classes below some depth. -/
def ClassesTell (input : ResolveInput) (r : Resolution) (v : Visitors) (depth : Nat) : Prop :=
  ∀ ⦃i : Nat⦄, i < depth → input.ast.IsClass i → ∀ ⦃a c s⦄, Laid input.ast a [i] c →
    s.resolution.header = r.header → (v.classDecl i).Leads s fun _ s' =>
      ToldClasses input r [i] s s'

theorem tells_members (h : KnownClass input r m decl cl b d) (hv : VisitorsTell input r v depth)
    (hc : ClassesCover input r v depth) (ht : ClassesTell input r v depth) (hm : m ≤ depth)
    (hs : At input r cl.fullName (inClass m) s) :
    (do
      let _ ← decl.fields.foldlM (walkField input v) []
      decl.methods.forM v.statement
      decl.inner.forM v.classDecl : Walk Unit).Leads s fun _ s' =>
        ToldClasses input r [m] s s' := by
  have hnil (s : WalkState) : Told input [] [] s s := .nil (.refl s.resolution)
  have hcons {k : NodeId} {ks : List NodeId} {s s₁ s₂ : WalkState} (h₁ : Told input [] [k] s s₁)
      (h₂ : Told input [] ks s₁ s₂) : Told input [] (k :: ks) s s₂ := h₁.append h₂
  simp only [leads_bind]
  refine (leads_foldlM (I := At input r cl.fullName (inClass m)) hnil hcons
    (fun k hk known s₁ hs₁ => ?_) [] hs).mono ?_
  · have hall : k ∈ decl.fields ++ decl.methods ++ decl.inner := by simp [hk]
    have hfield : ∀ decl, input.ast.data? k = some (.varDecl decl) →
        input.ast.IsFieldDecl r.classes decl := fun decl hdata =>
      ⟨m, _, k, h.data, by rw [h.known]; rfl, hk, hdata⟩
    have hle := Nat.le_of_lt (h.lt_of_mem hm hall)
    refine ((leads_walkField hv.toVisitorsCover hle (h.laid_member hall)
      (h.isVar k hk) h.le_id hfield hs₁ known).and
      (tells_walkField hv hle (h.laid_member hall) (h.isVar k hk) h.le_id hs₁
        known)).mono ?_
    rintro _ s₂ ⟨⟨hs₂, -⟩, htold⟩
    exact ⟨hs₂, htold⟩
  rintro _ s₁ ⟨hs₁, hfields⟩
  refine (leads_forM (I := At input r cl.fullName (inClass m)) hnil hcons (fun k hk s₂ hs₂ => ?_)
    hs₁).mono ?_
  · have hall : k ∈ decl.fields ++ decl.methods ++ decl.inner := by simp [hk]
    have hnone := h.directVars_method hk
    have hsited : Sited input.ast b d [k] (inClass m) := sited_inClass hnone h.le_id
    have hlt := h.lt_of_mem hm hall
    refine ((hv.statement k hlt (h.isStmt_method hk) (h.laid_member hall) hsited hs₂).and
      (hv.tellStatement k hlt (h.isStmt_method hk) (h.laid_member hall) hsited hs₂)).mono ?_
    rintro _ s₃ ⟨hs₃, htold⟩
    have hstands := hs₃.stands
    rw [declare_eq_self hnone] at hstands
    exact ⟨hstands, htold.anywhere hnone []⟩
  rintro _ s₂ ⟨hs₂, hmethods⟩
  refine (leads_forM (I := At input r cl.fullName (inClass m)) (T := ToldClasses input r)
    ToldClasses.nil ToldClasses.cons (fun k hk s₃ hs₃ => ?_) hs₂).mono ?_
  · have hall : k ∈ decl.fields ++ decl.methods ++ decl.inner := List.mem_append_right _ hk
    have hlt := h.lt_of_mem hm hall
    refine ((hc hlt (h.isClass k hk) (h.laid_member hall) hs₃.header).and
      (ht hlt (h.isClass k hk) (h.laid_member hall) hs₃.header)).mono ?_
    rintro _ s₄ ⟨⟨hs₄, -⟩, htold⟩
    exact ⟨at_inClass h hk hs₃ hs₄, htold⟩
  rintro _ s₃ ⟨-, hinner⟩
  exact .known h.data h.known (hfields.append hmethods) hinner

theorem tells_walkClass (hv : VisitorsTell input r v depth) (hc : ClassesCover input r v depth)
    (ht : ClassesTell input r v depth) (hm : m ≤ depth) (hclass : input.ast.IsClass m)
    (hlaid : Laid input.ast a [m] c) (hheader : s.resolution.header = r.header) :
    (walkClass input v m).Leads s fun _ s' => ToldClasses input r [m] s s' := by
  obtain ⟨decl, hdata, hscript⟩ := hclass
  have hclasses : s.resolution.classes = r.classes := congrArg Resolution.Header.classes hheader
  unfold walkClass
  simp only [leads_bind, leads_get, hclasses, Ast.classDecl?_eq_some.mpr hdata]
  cases hknown : r.classes.find? (·.decl == m) with
  | none => exact ⟨[], .unknown hdata hknown, .refl s.resolution⟩
  | some cl =>
    obtain ⟨b, d, h⟩ := KnownClass.of_laid hlaid hdata hknown
    simp only [leads_bind, leads_modify]
    refine ((mute_checkBase decl cl).along (leads_checkBase m decl cl s)).mono ?_
    rintro _ s₁ ⟨hs₁, h₁⟩
    refine ((mute_openScope m none).along (leads_openScope m none _)).mono ?_
    rintro _ s₂ ⟨⟨hs₂, hblock₂, howner₂, hheld₂⟩, h₂⟩
    refine ((mute_noteBlock m).along (leads_noteBlock m s₂)).mono ?_
    rintro _ s₃ ⟨⟨hs₃, -⟩, h₃⟩
    have hstands₂ : At input r cl.fullName (inClass m) s₂ := by
      refine ⟨hs₂.header.trans (hs₁.alters.header.trans hheader), howner₂, hblock₂, hheld₂, ?_⟩
      exact ⟨by simp, trivial⟩
    have hstands₃ := hstands₂.kept hs₃ fun _ _ => by simp
    have hmembers := tells_members h hv hc ht hm hstands₃
    exact hmembers.mono fun _ s₄ h₄ => ((h₄.before h₃).before h₂).before h₁

/-- By induction on the depth. -/
theorem classesTell_visitors (depth : Nat) : ClassesTell input r (visitors input depth) depth := by
  induction depth with
  | zero => exact fun i hi => absurd hi (Nat.not_lt_zero i)
  | succ depth ih =>
    intro i hi hclass a c s hlaid hheader
    exact tells_walkClass (tells_visitors depth) (classesCover_visitors depth) ih
      (Nat.le_of_lt_succ hi) hclass hlaid hheader

/-! ### Scripts -/

/-- A script tells of the scopes of its statements and of those in its classes. -/
theorem tells_walkScript {mk : MarkerId → Marker} {events : List Event} {parts : ScriptParts}
    (h : ScriptRecorded input.ast mk events input.root parts) (hdepth : input.root ≤ depth)
    (hs : At input r r.scriptClass [] s) :
    (walkScript input (visitors input depth) parts.decl).Leads s fun _ s' =>
      ∃ scopes scopes', input.ast.Opens [parts.body] scopes ∧
        input.ast.OpensClasses r.classes parts.decl.inner scopes' ∧
        s.resolution.Tells ((scopes ++ scopes').flatMap (Surround.again input.ast))
          s'.resolution := by
  have hbody : parts.body ≤ depth := Nat.le_trans (Nat.le_of_lt h.body_lt) hdepth
  have hsited : Sited input.ast ⟨0, 0⟩ ⟨parts.body + 1, parts.stop.text⟩ [parts.body] [] :=
    ⟨by simp, by simp, by simp⟩
  have himports : Mute (s.resolution.imports.forM (checkImport input)) := fun _ =>
    reports_forM fun i _ => mute_checkImport i _
  unfold walkScript
  simp only [leads_bind, leads_get]
  refine (himports.along (leads_forM (I := fun _ => True) (T := fun _ s s' => s.Quiet s')
    (fun s => .refl _ s) (fun h₁ h₂ => h₁.trans h₂)
    (fun i _ s₁ _ => ⟨trivial, leads_checkImport i s₁⟩) trivial)).mono ?_
  rintro _ s₁ ⟨⟨-, hs₁⟩, h₁⟩
  have hstands₁ := hs.kept hs₁ fun _ _ => id
  have hcovers := leads_block (covers_visitors depth) hbody h.laid_body h.opens?_body
    hsited hstands₁ (.refl _ s₁) (by rw [hstands₁.block]; rfl)
  have htells := tells_block (tells_visitors depth) hbody h.opens?_body h.laid_body hsited hstands₁
  rw [h.script.body]
  refine leads_bind.mpr ((hcovers.and htells).mono ?_)
  rintro _ s₂ ⟨hs₂, scopes, hopens, h₂⟩
  refine leads_pure.mpr ((leads_forM (I := fun s => s.resolution.header = r.header)
    (T := ToldClasses input r) ToldClasses.nil ToldClasses.cons (fun i hi s₃ hs₃ => ?_)
    hs₂.stands.header).mono ?_)
  · have hle := h.class_le hdepth hi
    refine ((leads_walkClass (covers_visitors depth) (classesCover_visitors depth) hle
      (h.classes i hi) (h.laid_class hi) hs₃).and (tells_walkClass (tells_visitors depth)
      (classesCover_visitors depth) (classesTell_visitors depth) hle (h.classes i hi)
      (h.laid_class hi) hs₃)).mono ?_
    rintro _ s₄ ⟨⟨hs₄, -⟩, htold⟩
    exact ⟨hs₄.alters.header.trans hs₃, htold⟩
  · rintro _ s₃ ⟨-, scopes', hopens', h₃⟩
    refine ⟨scopes, scopes', hopens, hopens', ?_⟩
    rw [List.flatMap_append]
    exact (h₁.before h₂).trans h₃

end Walk

/-- Resolving the names of a script reports the declarations that its scopes do not keep. -/
theorem ResolveInput.resolve_tells {input : ResolveInput} {mk : MarkerId → Marker}
    {events : List Event} {parts : ScriptParts}
    (h : ScriptRecorded input.ast mk events input.root parts) :
    ∃ scopes scopes', input.ast.Opens [parts.body] scopes ∧
      input.ast.OpensClasses input.resolve.value.classes parts.decl.inner scopes' ∧
      (input.start parts.decl).resolution.Tells
        ((scopes ++ scopes').flatMap (Surround.again input.ast)) input.resolve.value := by
  obtain ⟨scopes, scopes', hbody, hinner, htold⟩ := Walk.tells_walkScript h
    (Nat.le_of_lt (Ast.lt_size_of_data? h.data_root)) (at_start h)
  rw [← resolve_value h] at htold
  exact ⟨scopes, scopes', hbody, hinner, htold⟩

end ScriptAnalysis

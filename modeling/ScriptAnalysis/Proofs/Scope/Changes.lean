import ScriptAnalysis.Proofs.Scope.Meaning

/-!
# What a step of a walk changes

A walk finds out what nodes are bound to, which scope is around each, what the scopes hold, and
which names refer to nothing.  Each of these is a `Fact`.  `WalkState.Changes` bounds the facts that
a part of the walk may change, so that what was found out before it is still known after it.
-/

namespace ScriptAnalysis

/-! ### Facts -/

/-- Something that a walk finds out. -/
inductive Fact where
  /-- What a node is bound to. -/
  | binding (n : NodeId)
  /-- The innermost scope around a node. -/
  | noted (n : NodeId)
  /-- What a scope holds. -/
  | scope (block : NodeId)
  /-- How often a name was reported to be unknown at a span. -/
  | unknown (name : String) (span : Span)

def unknownVariable (name : String) (span : Span) : Diagnostic :=
  .ofResolution s!"Unknown variable '{name}'" span

theorem ne_unknownVariable {message : String}
    (h : message.toList.take 9 ≠ "Unknown v".toList) (name : String) :
    message ≠ s!"Unknown variable '{name}'" := by
  rintro rfl
  apply h
  simp [toString, String.toList_append]

theorem unknownVariable_inj {name name' : String} {span span' : Span}
    (h : unknownVariable name span = unknownVariable name' span') :
    name = name' ∧ span = span' := by
  have hmessage := congrArg (fun d => d.message.toList) h
  have hspan := congrArg Diagnostic.span h
  simp only [unknownVariable, Diagnostic.ofResolution, toString, String.toList_append,
    List.append_cancel_left_eq, List.append_cancel_right_eq, String.toList_inj] at hmessage
  exact ⟨hmessage, hspan⟩

/-- How often a name was reported to be unknown at a span. -/
def Resolution.unknowns (r : Resolution) (name : String) (span : Span) : Nat :=
  r.diagnostics.count (unknownVariable name span)

namespace Fact

/-- A fact is the same in two resolutions. -/
def Same (r r' : Resolution) : Fact → Prop
  | binding n => r'.bindings[n]? = r.bindings[n]?
  | noted n => r'.nodeBlock[n]? = r.nodeBlock[n]?
  | scope block => r'.blocks[block]? = r.blocks[block]?
  | unknown name span => r'.unknowns name span = r.unknowns name span

theorem Same.refl (r : Resolution) (f : Fact) : f.Same r r := by
  cases f <;> rfl

theorem Same.trans {r r' r'' : Resolution} {f : Fact} (h : f.Same r r') (k : f.Same r' r'') :
    f.Same r r'' := by
  cases f <;> exact Eq.trans k h

end Fact

/-! ### Changes -/

/-- Only some of the facts differ. -/
structure Resolution.Alters (F : Fact → Prop) (r r' : Resolution) : Prop where
  header : r'.header = r.header
  same : ∀ f, ¬ F f → f.Same r r'

namespace Resolution.Alters

variable {F G : Fact → Prop} {r r' r'' : Resolution}

theorem refl (F : Fact → Prop) (r : Resolution) : r.Alters F r := ⟨rfl, fun f _ => .refl r f⟩

theorem mono (h : r.Alters F r') (hFG : ∀ f, F f → G f) : r.Alters G r' :=
  ⟨h.header, fun f hf => h.same f fun hF => hf (hFG f hF)⟩

theorem trans (h : r.Alters F r') (k : r'.Alters F r'') : r.Alters F r'' :=
  ⟨k.header.trans h.header, fun f hf => (h.same f hf).trans (k.same f hf)⟩

end Resolution.Alters

/-- The walk stays where it is, and changes only some of the facts. -/
structure WalkState.Changes (F : Fact → Prop) (s s' : WalkState) : Prop where
  alters : s.resolution.Alters F s'.resolution
  block : s'.block = s.block
  owner : s'.owner = s.owner

/-- The walk changes none of the facts. -/
abbrev WalkState.Quiet (s s' : WalkState) : Prop := s.Changes (fun _ => False) s'

namespace WalkState.Changes

variable {F G : Fact → Prop} {s s' s'' : WalkState}

theorem same (h : s.Changes F s') {f : Fact} (hf : ¬ F f) : f.Same s.resolution s'.resolution :=
  h.alters.same f hf

theorem refl (F : Fact → Prop) (s : WalkState) : s.Changes F s := ⟨.refl F _, rfl, rfl⟩

theorem mono (h : s.Changes F s') (hFG : ∀ f, F f → G f) : s.Changes G s' :=
  ⟨h.alters.mono hFG, h.block, h.owner⟩

theorem trans (h : s.Changes F s') (k : s'.Changes F s'') : s.Changes F s'' :=
  ⟨h.alters.trans k.alters, k.block.trans h.block, k.owner.trans h.owner⟩

theorem quiet (h : s.Quiet s') (F : Fact → Prop) : s.Changes F s' := h.mono fun _ => False.elim

end WalkState.Changes

/-! ### Steps -/

namespace Walk

variable {α β : Type} {s : WalkState}

/-- A walk leads from a state to an answer and a state with a property. -/
def Leads (x : Walk α) (s : WalkState) (Q : α → WalkState → Prop) : Prop :=
  Q (x.run s).1 (x.run s).2

theorem Leads.mono {x : Walk α} {Q Q' : α → WalkState → Prop} (h : x.Leads s Q)
    (hQ : ∀ a s', Q a s' → Q' a s') : x.Leads s Q' := hQ _ _ h

theorem Leads.and {x : Walk α} {Q Q' : α → WalkState → Prop} (h : x.Leads s Q) (k : x.Leads s Q') :
    x.Leads s fun a s' => Q a s' ∧ Q' a s' := ⟨h, k⟩

@[simp] theorem leads_pure {a : α} {Q : α → WalkState → Prop} :
    (pure a : Walk α).Leads s Q ↔ Q a s := Iff.rfl

@[simp] theorem leads_bind {x : Walk α} {f : α → Walk β} {Q : β → WalkState → Prop} :
    (x >>= f).Leads s Q ↔ x.Leads s fun a s' => (f a).Leads s' Q := Iff.rfl

@[simp] theorem leads_map {x : Walk α} {f : α → β} {Q : β → WalkState → Prop} :
    (f <$> x).Leads s Q ↔ x.Leads s fun a s' => Q (f a) s' := Iff.rfl

@[simp] theorem leads_get {Q : WalkState → WalkState → Prop} :
    (get : Walk WalkState).Leads s Q ↔ Q s s := Iff.rfl

@[simp] theorem leads_modify {f : WalkState → WalkState} {Q : PUnit → WalkState → Prop} :
    (modify f : Walk PUnit).Leads s Q ↔ Q ⟨⟩ (f s) := Iff.rfl

@[simp] theorem leads_scope? {block : NodeId} {Q : Option BlockScope → WalkState → Prop} :
    (scope? block).Leads s Q ↔ Q s.resolution.blocks[block]? s := Iff.rfl

theorem leads_consult (x : Consulted α) (s : WalkState) :
    (consult x).Leads s fun a s' => a = x.value ∧ s.Quiet s' :=
  ⟨rfl, .refl _ _, rfl, rfl⟩

theorem leads_report {message : String} (h : message.toList.take 9 ≠ "Unknown v".toList)
    (span : Span) (s : WalkState) : (report message span).Leads s fun _ s' => s.Quiet s' := by
  refine ⟨⟨rfl, fun f _ => ?_⟩, rfl, rfl⟩
  cases f with
  | unknown name at_ =>
    have hne : Diagnostic.ofResolution message span ≠ unknownVariable name at_ := by
      intro heq
      exact ne_unknownVariable h name (congrArg Diagnostic.message heq)
    show List.count _ (_ ++ [_]) = _
    rw [List.count_append, List.count_singleton, if_neg (by simpa using hne)]
    rfl
  | _ => rfl

/-- A name that refers to nothing is reported. -/
theorem leads_report_unknown (name : String) (span : Span) (s : WalkState) :
    (report s!"Unknown variable '{name}'" span).Leads s fun _ s' =>
      s.Changes (· = .unknown name span) s' ∧
        s'.resolution.unknowns name span = s.resolution.unknowns name span + 1 := by
  refine ⟨⟨⟨rfl, fun f hf => ?_⟩, rfl, rfl⟩, ?_⟩
  · cases f with
    | unknown other at_ =>
      have hne : unknownVariable name span ≠ unknownVariable other at_ := by
        intro heq
        obtain ⟨rfl, rfl⟩ := unknownVariable_inj heq
        exact hf rfl
      show List.count _ (_ ++ [_]) = _
      rw [List.count_append, List.count_singleton, if_neg (by simpa [unknownVariable] using hne)]
      rfl
    | _ => rfl
  · show List.count _ (_ ++ [_]) = _
    rw [List.count_append, List.count_singleton, if_pos (by simp [unknownVariable])]
    rfl

theorem leads_noteBlock (node : NodeId) (s : WalkState) :
    (noteBlock node).Leads s fun _ s' => s.Changes (· = .noted node) s' ∧
      s'.resolution.nodeBlock[node]? = s.block.or s.resolution.nodeBlock[node]? := by
  unfold noteBlock
  simp only [leads_bind, leads_get]
  split
  · next block hblock =>
    refine ⟨⟨⟨rfl, fun f hf => ?_⟩, rfl, rfl⟩, ?_⟩
    · cases f with
      | noted n =>
        have hne : node ≠ n := fun heq => hf (by rw [heq])
        exact Std.TreeMap.getElem?_insert.trans (if_neg (by simpa using hne))
      | _ => rfl
    · rw [hblock]
      exact Std.TreeMap.getElem?_insert_self
  · next hblock =>
    rw [hblock]
    exact ⟨.refl _ _, rfl⟩

theorem leads_openScope (node : NodeId) (enclosing : Option NodeId) (s : WalkState) :
    (openScope node enclosing).Leads s fun _ s' =>
      s.resolution.Alters (· = .scope node) s'.resolution ∧ s'.block = some node ∧
        s'.owner = s.owner ∧ s'.resolution.blocks[node]? = some ⟨enclosing, s.owner, [], []⟩ := by
  refine ⟨⟨rfl, fun f hf => ?_⟩, rfl, rfl, Std.TreeMap.getElem?_insert_self⟩
  cases f with
  | scope block =>
    have hne : node ≠ block := fun heq => hf (by rw [heq])
    exact Std.TreeMap.getElem?_insert.trans (if_neg (by simpa using hne))
  | _ => rfl

theorem leads_bindTo (node : NodeId) (binding : Binding) (s : WalkState) :
    (bindTo node binding).Leads s fun _ s' => s.Changes (· = .binding node) s' ∧
      s'.resolution.bindings[node]? = some binding := by
  refine ⟨⟨⟨rfl, fun f hf => ?_⟩, rfl, rfl⟩, Std.TreeMap.getElem?_insert_self⟩
  cases f with
  | binding n =>
    have hne : node ≠ n := fun heq => hf (by rw [heq])
    exact Std.TreeMap.getElem?_insert.trans (if_neg (by simpa using hne))
  | _ => rfl

theorem leads_modifyScope {block : NodeId} {scope : BlockScope} {s : WalkState}
    (hscope : s.resolution.blocks[block]? = some scope) (f : BlockScope → BlockScope) :
    (modifyScope block f).Leads s fun _ s' => s.Changes (· = .scope block) s' ∧
      s'.resolution.blocks[block]? = some (f scope) := by
  refine ⟨⟨⟨rfl, fun fact hf => ?_⟩, rfl, rfl⟩, ?_⟩
  · cases fact with
    | scope other =>
      have hne : block ≠ other := fun heq => hf (by rw [heq])
      exact Std.TreeMap.getElem?_modify.trans (if_neg (by simpa using hne))
    | _ => rfl
  · refine Std.TreeMap.getElem?_modify_self.trans ?_
    rw [hscope]
    rfl

/-- Walks one after the other, each with an answer from those before it, keep what each of them
    keeps and do together what each of them does. -/
theorem leads_foldlM {visit : β → α → Walk β} {I : WalkState → Prop}
    {T : List α → WalkState → WalkState → Prop} {as : List α} (hnil : ∀ s, T [] s s)
    (hcons : ∀ {a as s s₁ s₂}, T [a] s s₁ → T as s₁ s₂ → T (a :: as) s s₂)
    (hvisit : ∀ a ∈ as, ∀ b s, I s → (visit b a).Leads s fun _ s' => I s' ∧ T [a] s s') (b : β)
    (hs : I s) : (as.foldlM visit b).Leads s fun _ s' => I s' ∧ T as s s' := by
  induction as generalizing b s with
  | nil => exact ⟨hs, hnil s⟩
  | cons a as ih =>
    rw [List.foldlM_cons]
    refine leads_bind.mpr ((hvisit a (List.mem_cons_self ..) b s hs).mono ?_)
    rintro b' s₁ ⟨hs₁, h₁⟩
    refine (ih (fun a ha => hvisit a (List.mem_cons_of_mem _ ha)) b' hs₁).mono ?_
    rintro _ s₂ ⟨hs₂, h₂⟩
    exact ⟨hs₂, hcons h₁ h₂⟩

theorem leads_forM {visit : α → Walk PUnit} {I : WalkState → Prop}
    {T : List α → WalkState → WalkState → Prop} {as : List α} (hnil : ∀ s, T [] s s)
    (hcons : ∀ {a as s s₁ s₂}, T [a] s s₁ → T as s₁ s₂ → T (a :: as) s s₂)
    (hvisit : ∀ a ∈ as, ∀ s, I s → (visit a).Leads s fun _ s' => I s' ∧ T [a] s s') (hs : I s) :
    (as.forM visit).Leads s fun _ s' => I s' ∧ T as s s' := by
  induction as generalizing s with
  | nil => exact ⟨hs, hnil s⟩
  | cons a as ih =>
    refine leads_bind.mpr ((hvisit a (List.mem_cons_self ..) s hs).mono ?_)
    rintro _ s₁ ⟨hs₁, h₁⟩
    refine (ih (fun a ha => hvisit a (List.mem_cons_of_mem _ ha)) hs₁).mono ?_
    rintro _ s₂ ⟨hs₂, h₂⟩
    exact ⟨hs₂, hcons h₁ h₂⟩

end Walk

/-! ### Standing in a script -/

/-- The walk stands in code of the class `owner`, within the scopes of `env`. -/
structure At (input : ResolveInput) (r : Resolution) (owner : String) (env : List Standing)
    (s : WalkState) : Prop where
  header : s.resolution.header = r.header
  owned : s.owner = owner
  block : s.block = innermost (env.map Standing.surround)
  scopes : Scoped input.ast s.resolution.blocks owner env

theorem At.kept {input : ResolveInput} {r : Resolution} {owner : String} {env : List Standing}
    {F : Fact → Prop} {s s' : WalkState} (h : At input r owner env s) (hs : s.Changes F s')
    (hF : ∀ st ∈ env, ¬ F (.scope st.surround.block)) : At input r owner env s' where
  header := hs.alters.header.trans h.header
  owned := hs.owner.trans h.owned
  block := hs.block.trans h.block
  scopes := h.scopes.congr fun st hst => hs.same (hF st hst)

namespace Walk

variable {input : ResolveInput} {r : Resolution} {owner : String} {env : List Standing}
  {s : WalkState}

theorem leads_resolveClass (h : At input r owner env s) (written : String) :
    (resolveClass input written).Leads s fun found s' => s.Quiet s' ∧
      found = (r.resolveClass input.others written owner).value.map ClassSummary.fullName := by
  unfold resolveClass
  simp only [leads_bind, leads_get, leads_pure]
  refine (leads_consult _ s).mono fun found s' hfound => ⟨hfound.2, ?_⟩
  rw [hfound.1, Resolution.resolveClass_congr input.others h.header, h.owned]

/-- A lookup finds what the name means at the place. -/
theorem leads_lookup (h : At input r owner env s) {a c : ParsePoint} {offset : Nat}
    (henv : ∀ st ∈ env, st.Placed input.ast a c []) (ha : a.text ≤ offset) (hc : offset < c.text)
    (name : String) : (lookup input name).Leads s fun found s' => s.Quiet s' ∧
      found = input.meaning r owner (r.classChain input.others owner).value
        (env.map Standing.surround) name offset := by
  have hscopes := findSome?_heldScopes henv ha hc owner name
  unfold lookup ResolveInput.meaning
  simp only [leads_bind, leads_get]
  rw [h.block, Resolution.scopesAround_of_scoped h.scopes, hscopes]
  cases (env.map Standing.surround).findSome? fun scope => scope.find? input.ast name offset with
  | some decl => exact ⟨.refl _ s, rfl⟩
  | none =>
    simp only [leads_bind]
    refine (leads_consult _ s).mono ?_
    rintro chain s₁ ⟨hchain, hs₁⟩
    rw [hchain, Resolution.classChain_congr input.others h.header, h.owned]
    cases (r.classChain input.others owner).value.findSome? fun c => c.memberBinding? name with
    | some binding => exact ⟨hs₁, rfl⟩
    | none =>
      have hscript : s.resolution.scriptClass = r.scriptClass :=
        congrArg Resolution.Header.scriptClass h.header
      have hclass := leads_resolveClass (h.kept hs₁ fun _ _ => id) name
      rw [hscript]
      dsimp only
      split
      · exact ⟨hs₁, rfl⟩
      · simp only [leads_bind, leads_pure]
        refine hclass.mono ?_
        rintro found s₂ ⟨hs₂, hfound⟩
        refine ⟨hs₁.trans hs₂, ?_⟩
        rw [hfound, Option.map_map]
        rfl

/-- The outcome of a name: a node is bound to what its name means, or the name is reported once. -/
structure Outcome (n : NodeId) (name : String) (span : Span) (meaning : Option Binding)
    (s s' : WalkState) : Prop where
  bound : s.resolution.bindings[n]? = none → s'.resolution.bindings[n]? = meaning
  reported : s'.resolution.unknowns name span =
    s.resolution.unknowns name span + if meaning = none then 1 else 0

theorem leads_bindName (h : At input r owner env s) {a c : ParsePoint} {n : NodeId}
    (henv : ∀ st ∈ env, st.Placed input.ast a c []) (ha : a.text ≤ (input.ast.span n).start)
    (hc : (input.ast.span n).start < c.text) (name : String) :
    (bindName input n name).Leads s fun _ s' =>
      s.Changes (fun f => f = .binding n ∨ f = .unknown name (input.ast.span n)) s' ∧
      Outcome n name (input.ast.span n) (input.meaning r owner
        (r.classChain input.others owner).value (env.map Standing.surround) name
        (input.ast.span n).start) s s' := by
  unfold bindName
  simp only [leads_bind]
  refine (leads_lookup h henv ha hc name).mono ?_
  rintro found s₁ ⟨hs₁, hfound⟩
  rw [← hfound]
  cases found with
  | some binding =>
    refine (leads_bindTo n binding s₁).mono ?_
    rintro _ s₂ ⟨hs₂, hbound⟩
    refine ⟨?_, fun _ => hbound, ?_⟩
    · exact (hs₁.quiet _).trans (hs₂.mono fun f hf => .inl hf)
    · exact Fact.Same.trans (f := .unknown name _) (hs₁.same id) (hs₂.same (by simp))
  | none =>
    refine (leads_report_unknown name _ s₁).mono ?_
    rintro _ s₂ ⟨hs₂, hreported⟩
    refine ⟨?_, fun hnone => ?_, ?_⟩
    · exact (hs₁.quiet _).trans (hs₂.mono fun f hf => .inr hf)
    · have h₁ : s₁.resolution.bindings[n]? = s.resolution.bindings[n]? :=
        hs₁.same (f := .binding n) id
      have h₂ : s₂.resolution.bindings[n]? = s₁.resolution.bindings[n]? :=
        hs₂.same (f := .binding n) (by simp)
      rw [h₂, h₁, hnone]
    · rw [hreported]
      exact congrArg (· + 1) (hs₁.alters.same (.unknown name _) id)

/-! ### Checks -/

theorem leads_checkNumeric (symbol : String) (operand : NodeId) (s : WalkState) :
    (checkNumeric input symbol operand).Leads s fun _ s' => s.Quiet s' := by
  unfold checkNumeric
  simp only [leads_bind, leads_get]
  split
  · exact .refl _ s
  · split
    · exact leads_report (by simp [toString, String.toList_append]) _ s
    · exact .refl _ s

theorem leads_checkType (h : At input r owner env s) (type : TypeRef) (span : Span) :
    (checkType input type span).Leads s fun _ s' => s.Quiet s' := by
  unfold checkType
  split
  · simp only [leads_bind]
    refine (leads_resolveClass h _).mono ?_
    rintro found s₁ ⟨hs₁, _⟩
    split
    · exact (leads_report (by simp [toString, String.toList_append]) _ s₁).mono
        fun _ s₂ hs₂ => hs₁.trans hs₂
    · exact hs₁
  · exact .refl _ s

theorem leads_checkBase (node : NodeId) (decl : ClassDecl) (c : ClassSummary) (s : WalkState) :
    (checkBase input node decl c).Leads s fun _ s' => s.Quiet s' := by
  unfold checkBase
  split
  · simp only [leads_bind, leads_get]
    refine (leads_consult _ s).mono ?_
    rintro found s₁ ⟨_, hs₁⟩
    split
    · exact (leads_report (by simp [toString, String.toList_append]) _ s₁).mono
        fun _ s₂ hs₂ => hs₁.trans hs₂
    · exact hs₁
  · exact .refl _ s

theorem leads_checkImport (i : ImportedClass) (s : WalkState) :
    (checkImport input i).Leads s fun _ s' => s.Quiet s' := by
  unfold checkImport
  simp only [leads_bind, leads_get]
  refine (leads_consult _ s).mono ?_
  rintro found s₁ ⟨_, hs₁⟩
  split
  · exact (leads_report (by simp [toString, String.toList_append]) _ s₁).mono
      fun _ s₂ hs₂ => hs₁.trans hs₂
  · exact hs₁

end Walk

end ScriptAnalysis

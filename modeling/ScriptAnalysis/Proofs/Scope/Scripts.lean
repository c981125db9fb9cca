import ScriptAnalysis.Proofs.Grammar.ScriptNodes
import ScriptAnalysis.Proofs.Scope.Classes

/-!
# Walks over scripts

A script is walked as its statements, in code of its own class, and then as its classes.  Nothing is
bound before, so afterwards every node at a place of the script is bound to what it means there, and
no other node is bound to anything.
-/

namespace ScriptAnalysis

/-! ### Layout of a script -/

namespace ScriptRecorded

variable {ast : Ast} {mk : MarkerId → Marker} {events : List Event} {root : Nat}
  {parts : ScriptParts}

theorem laid (h : ScriptRecorded ast mk events root parts) :
    Laid ast ⟨0, 0⟩ parts.members parts.stop := h.recorded.laid

theorem laid_class (h : ScriptRecorded ast mk events root parts) {i : NodeId}
    (hi : i ∈ parts.decl.inner) : Laid ast ⟨0, 0⟩ [i] parts.stop :=
  h.laid.mem (h.perm.mem_iff.mpr (by simp [hi]))

theorem class_le (h : ScriptRecorded ast mk events root parts) {depth : Nat} (hdepth : root ≤ depth)
    {i : NodeId} (hi : i ∈ parts.decl.inner) : i ≤ depth := by
  have hlt := ((h.laid_class hi).mem_lt (List.mem_singleton_self i)).2
  exact Nat.le_trans (Nat.le_of_lt hlt)
    (Nat.le_trans h.le_body (Nat.le_trans (Nat.le_of_lt h.body_lt) hdepth))

/-- The block of the statements is laid out behind everything in the script. -/
theorem laid_body (h : ScriptRecorded ast mk events root parts) :
    Laid ast ⟨0, 0⟩ [parts.body] ⟨parts.body + 1, parts.stop.text⟩ := by
  refine Laid.single (h.laid.sublist h.sublist)
    (show (NodeData.block parts.stmts).Arranged parts.stmts from rfl) ?_
  exact {
    found := h.data_body
    formed := h.isStmt
    before := .refl _
    le_id := h.le_body
    id_lt := Nat.lt_succ_self _
    text := Nat.le_refl _
    start := by simp [NodeData.isSolid]
    solid := by simp [NodeData.isSolid]
    parts := by simp [NodeData.isSolid]
    stop := by simp [NodeData.isSolid]
    lead := by simp
    decl := by simp }

theorem classDecl?_root (h : ScriptRecorded ast mk events root parts) :
    ast.classDecl? root = some parts.decl := by
  unfold Ast.classDecl?
  rw [h.data_root]

theorem opens?_body (h : ScriptRecorded ast mk events root parts) :
    ast.opens? parts.body = some ⟨parts.body, [], parts.stmts, false⟩ := by
  unfold Ast.opens?
  rw [h.data_body]

/-- No fact is about a statement of a script and about a class in it. -/
theorem apart (h : ScriptRecorded ast mk events root parts) {k i : NodeId} {f : Fact}
    (hk : k ∈ parts.stmts) (hi : i ∈ parts.decl.inner) (hfk : f.Of ast k) : ¬ f.Of ast i := by
  intro hfi
  have hnodup := h.perm.nodup h.laid.nodup
  have heq := hfk.unique h.laid (h.sublist.mem hk) (h.perm.mem_iff.mpr (by simp [hi])) hfi
  rw [List.append_assoc] at hnodup
  have hrest := (List.nodup_append.mp (List.nodup_append.mp hnodup).2.1).2.2
  exact hrest i hi k hk heq.symm

/-- What is found out within the statements of a script is no matter of its classes. -/
theorem not_of_class (h : ScriptRecorded ast mk events root parts) {i : NodeId} {f : Fact}
    (hi : i ∈ parts.decl.inner) (hf : ast.Touches [] [parts.body] f) : ¬ f.Of ast i := by
  obtain ⟨m, hm, around, n, hlies, hn⟩ := hf
  obtain rfl := List.mem_singleton.mp hm
  rcases hlies.scope_cases h.opens?_body with ⟨-, rfl⟩ | ⟨k, hk, -⟩ | ⟨k, hk, hlies⟩
  · obtain ⟨b, d, ho⟩ := Ast.opened h.laid_body h.opens?_body
    intro hfi
    have hwithin := hfi (h.laid_class hi)
    have hle := h.le_body
    have hbody : ∀ k : NodeId, k = parts.body → ¬ parts.stop.ids > k := by
      rintro k rfl
      exact Nat.not_lt_of_le hle
    cases f with
    | binding k => exact hbody k hn hwithin.2
    | noted k =>
      rcases hn with rfl | ⟨scope, hscope, rfl⟩
      · exact hbody _ rfl hwithin.2
      · cases h.opens?_body.symm.trans hscope
        exact hbody _ rfl hwithin.2
    | scope block =>
      rcases hn with ⟨scope, hscope, rfl⟩ | ⟨decl, -, rfl⟩
      · cases h.opens?_body.symm.trans hscope
        exact hbody _ rfl hwithin.2
      · exact hbody _ rfl hwithin.2
    | unknown name span => exact ho.unbound name hn.1
  · cases hk
  · exact h.apart hk hi fun hlaid => hn.within (hlies.laid hlaid)

end ScriptRecorded

/-! ### The walk -/

/-- The nodes in a script that are walked. -/
def Visited (input : ResolveInput) (r : Resolution) (parts : ScriptParts) :
    String → List Surround → NodeId → Prop := fun owner around n =>
  input.ast.Among r.scriptClass [] [parts.body] owner around n ∨
    ∃ i ∈ parts.decl.inner, Enters input.ast r.classes i owner around n

/-- The facts that the walk over a script may alter. -/
def Altered (input : ResolveInput) (r : Resolution) (parts : ScriptParts) (f : Fact) : Prop :=
  input.ast.Touches [] [parts.body] f ∨
    ∃ i ∈ parts.decl.inner, TouchesClass input.ast r.classes i f

namespace Walk

variable {input : ResolveInput} {r : Resolution} {mk : MarkerId → Marker} {events : List Event}
  {parts : ScriptParts} {s : WalkState}

/-- What the walk over classes finds out. -/
abbrev FoundClasses (input : ResolveInput) (r : Resolution) (is : List NodeId) :
    Resolution → Resolution → Prop :=
  Finds input r (fun owner around n => ∃ i ∈ is, Enters input.ast r.classes i owner around n)
    fun f => ∃ i ∈ is, TouchesClass input.ast r.classes i f

/-- Classes that are walked one after the other are different. -/
theorem foundClasses_cons (h : ScriptRecorded input.ast mk events input.root parts) {i : NodeId}
    {is : List NodeId} (hsub : (i :: is).Sublist parts.decl.inner) {r₁ r₂ r₃ : Resolution}
    (h₁ : FoundClasses input r [i] r₁ r₂) (h₂ : FoundClasses input r is r₂ r₃) :
    FoundClasses input r (i :: is) r₁ r₃ := by
  have hmem : ∀ j ∈ i :: is, j ∈ parts.decl.inner := fun j hj => hsub.mem hj
  have hnodup : (i :: is).Nodup := by
    have hall := h.perm.nodup h.laid.nodup
    exact ((List.nodup_append.mp (List.nodup_append.mp hall).1).2.1).sublist hsub
  have happart : ∀ {j k : NodeId} {f : Fact}, j ∈ [i] → k ∈ is → f.Of input.ast j →
      ¬ f.Of input.ast k := by
    intro j k f hj hk hfj hfk
    obtain rfl := List.mem_singleton.mp hj
    have heq := hfj.unique h.laid (h.perm.mem_iff.mpr (by simp [hmem j (List.mem_cons_self ..)]))
      (h.perm.mem_iff.mpr (by simp [hmem k (List.mem_cons_of_mem _ hk)])) hfk
    exact (List.nodup_cons.mp hnodup).1 (heq ▸ hk)
  refine (h₁.trans h₂ ?_ ?_).mono ?_ ?_
  · rintro owner around n f ⟨j, hj, hn⟩ hf ⟨k, hk, htouches⟩
    exact happart hj hk (hn.of hf) htouches.of
  · rintro owner around n f ⟨k, hk, hn⟩ hf ⟨j, hj, htouches⟩
    exact happart hj hk htouches.of (hn.of hf)
  · rintro owner around n ⟨j, hj, hn⟩
    rcases List.mem_cons.mp hj with rfl | hj
    · exact .inl ⟨j, List.mem_singleton_self j, hn⟩
    · exact .inr ⟨j, hj, hn⟩
  · rintro f (⟨j, hj, hf⟩ | ⟨j, hj, hf⟩)
    · exact ⟨j, by simp [List.mem_singleton.mp hj], hf⟩
    · exact ⟨j, List.mem_cons_of_mem _ hj, hf⟩

/-- The classes of a script are walked one after the other. -/
theorem leads_classes (h : ScriptRecorded input.ast mk events input.root parts) {depth : Nat}
    (hdepth : input.root ≤ depth) (hheader : s.resolution.header = r.header) :
    (parts.decl.inner.forM (walkClass input (visitors input depth))).Leads s fun _ s' =>
      FoundClasses input r parts.decl.inner s.resolution s'.resolution := by
  refine (leads_forM (I := fun s => s.resolution.header = r.header)
    (T := fun is s s' => is.Sublist parts.decl.inner →
      FoundClasses input r is s.resolution s'.resolution)
    (fun s _ => ⟨fun ⟨_, hi, _⟩ => absurd hi List.not_mem_nil, .refl _ _⟩)
    (fun h₁ h₂ hsub => ?_) (fun i hi s₁ hs₁ => ?_) hheader).mono fun _ s' hs' => hs'.2 (.refl _)
  · have hsub₁ := (List.singleton_sublist.mpr (List.mem_cons_self ..)).trans hsub
    exact foundClasses_cons h hsub (h₁ hsub₁) (h₂ ((List.sublist_cons_self ..).trans hsub))
  · refine (leads_walkClass (covers_visitors depth) (classesCover_visitors depth)
      (h.class_le hdepth hi) (h.classes i hi) (h.laid_class hi) hs₁).mono ?_
    rintro _ s₂ ⟨hs₂, hfound⟩
    refine ⟨hs₂.alters.header.trans hs₁, fun _ => hfound.mono ?_ ?_⟩
    · rintro owner around n ⟨j, hj, hn⟩
      obtain rfl := List.mem_singleton.mp hj
      exact hn
    · exact fun hf => ⟨i, List.mem_singleton_self i, hf⟩

/-- The statements of a script are walked in code of its class, outside every scope. -/
theorem leads_walkScript (h : ScriptRecorded input.ast mk events input.root parts) {depth : Nat}
    (hdepth : input.root ≤ depth) (hs : At input r r.scriptClass [] s) :
    (walkScript input (visitors input depth) parts.decl).Leads s fun _ s' =>
      Finds input r (Visited input r parts) (Altered input r parts) s.resolution s'.resolution := by
  unfold walkScript
  simp only [leads_bind, leads_get]
  refine (leads_forM (I := fun _ => True) (T := fun _ s s' => s.Quiet s') (fun s => .refl _ s)
    (fun h₁ h₂ => h₁.trans h₂) (fun i _ s₁ _ => ⟨trivial, leads_checkImport i s₁⟩) trivial).mono ?_
  rintro _ s₁ ⟨-, hs₁⟩
  have hstands₁ := hs.kept hs₁ fun _ _ => id
  have hbody : parts.body ≤ depth := Nat.le_trans (Nat.le_of_lt h.body_lt) hdepth
  have hsited : Sited input.ast ⟨0, 0⟩ ⟨parts.body + 1, parts.stop.text⟩ [parts.body] [] :=
    ⟨by simp, by simp, by simp⟩
  have hblock := leads_block (covers_visitors depth) hbody h.laid_body h.opens?_body hsited hstands₁
    (.refl _ s₁) (by rw [hstands₁.block]; rfl)
  have hclasses := fun s₂ => leads_classes (r := r) (s := s₂) h hdepth
  rw [h.script.body]
  refine leads_bind.mpr (hblock.mono fun _ s₂ hs₂ => ?_)
  refine leads_pure.mpr ((hclasses s₂ hs₂.stands.header).mono fun _ s₃ hs₃ => ?_)
  refine .quiet_before hs₁ ((hs₂.found.trans hs₃ ?_ ?_).mono id ?_)
  · rintro owner around n f hn hf ⟨i, hi, htouches⟩
    obtain ⟨-, k, hk, hlies⟩ := hn
    exact h.not_of_class hi ⟨k, hk, around, n, hlies, hf⟩ htouches.of
  · rintro owner around n f ⟨i, hi, hn⟩ hf (htouches | ⟨block, hblock, -⟩)
    · exact h.not_of_class hi htouches (hn.of hf)
    · cases hblock
  · rintro f ((htouches | ⟨block, hblock, -⟩) | htouches)
    · exact .inl htouches
    · cases hblock
    · exact .inr htouches

end Walk

/-! ### The resolution of a script -/

/-- A fact is touched where it is found out. -/
theorem Enters.of_touches {ast : Ast} {classes : List ClassSummary} {m : NodeId} {f : Fact}
    (h : TouchesClass ast classes m f) :
    ∃ owner around n, Enters ast classes m owner around n ∧ ast.Concerns n f := by
  induction h with
  | noted hdata hknown => exact ⟨_, _, _, .here hdata hknown, .inl rfl⟩
  | scope hdata hknown => exact ⟨_, _, _, .here hdata hknown, .inr ⟨_, hdata, rfl⟩⟩
  | member hdata hknown hk hlies hconcerns =>
    exact ⟨_, _, _, .member hdata hknown hk hlies, hconcerns⟩
  | inner hdata hknown hi _ ih =>
    obtain ⟨owner, around, n, henters, hconcerns⟩ := ih
    exact ⟨owner, around, n, .inner hdata hknown hi henters, hconcerns⟩

theorem Visited.of_altered {input : ResolveInput} {r : Resolution} {parts : ScriptParts} {f : Fact}
    (h : Altered input r parts f) :
    ∃ owner around n, Visited input r parts owner around n ∧ input.ast.Concerns n f := by
  rcases h with ⟨m, hm, around, k, hlies, hconcerns⟩ | ⟨i, hi, htouches⟩
  · exact ⟨_, around, k, .inl ⟨rfl, m, hm, hlies⟩, hconcerns⟩
  · obtain ⟨owner, around, n, henters, hconcerns⟩ := Enters.of_touches htouches
    exact ⟨owner, around, n, .inr ⟨i, hi, henters⟩, hconcerns⟩

namespace ResolveInput

variable {input : ResolveInput} {mk : MarkerId → Marker} {events : List Event}
  {parts : ScriptParts}

theorem resolve_value_of_script {script : ClassDecl}
    (h : input.ast.classDecl? input.root = some script) :
    input.resolve.value = ((Walk.walkScript input (Walk.visitors input input.ast.size)
      script).run (input.start script)).2.resolution := by
  unfold resolve
  rw [h]
  rfl

theorem resolve_value (h : ScriptRecorded input.ast mk events input.root parts) :
    input.resolve.value = ((Walk.walkScript input (Walk.visitors input input.ast.size)
      parts.decl).run (input.start parts.decl)).2.resolution :=
  resolve_value_of_script h.classDecl?_root

theorem header_resolve (h : ScriptRecorded input.ast mk events input.root parts) :
    input.resolve.value.header = (input.start parts.decl).resolution.header := by
  rw [resolve_value h]
  exact Walk.steady_walkScript input (Walk.steady_visitors input input.ast.size) parts.decl _

theorem scriptClass_resolve (h : ScriptRecorded input.ast mk events input.root parts) :
    input.resolve.value.scriptClass = qualify parts.decl.package input.scriptName :=
  congrArg Resolution.Header.scriptClass (header_resolve h)

/-- The walk starts in code of the class of the script, outside every scope. -/
theorem at_start (h : ScriptRecorded input.ast mk events input.root parts) :
    At input input.resolve.value input.resolve.value.scriptClass [] (input.start parts.decl) := by
  refine ⟨(header_resolve h).symm, ?_, rfl, trivial⟩
  rw [scriptClass_resolve h]
  rfl

/-- Resolving the names of a script finds out all about the nodes that are walked, and nothing about
    others. -/
theorem resolve_finds (h : ScriptRecorded input.ast mk events input.root parts) :
    Finds input input.resolve.value (Visited input input.resolve.value parts)
      (Altered input input.resolve.value parts) (input.start parts.decl).resolution
      input.resolve.value := by
  have hlt : input.root < input.ast.size := Ast.lt_size_of_data? h.data_root
  have hwalk : Finds input _ _ _ _ ((Walk.walkScript input (Walk.visitors input input.ast.size)
      parts.decl).run (input.start parts.decl)).2.resolution :=
    Walk.leads_walkScript h (Nat.le_of_lt hlt) (at_start h)
  rwa [← resolve_value h] at hwalk

/-- A node is bound to what it means at its place. -/
theorem bindings_resolve (h : ScriptRecorded input.ast mk events input.root parts) {owner : String}
    {around : List Surround} {n : NodeId}
    (hn : Visited input input.resolve.value parts owner around n) :
    input.resolve.value.bindings[n]? = input.bindingAt input.resolve.value owner around n :=
  ((resolve_finds h).settled hn).binding Std.TreeMap.getElem?_emptyc

/-- Whatever is bound was walked. -/
theorem visited_of_binding (h : ScriptRecorded input.ast mk events input.root parts) {n : NodeId}
    {b : Binding} (hb : input.resolve.value.bindings[n]? = some b) :
    ∃ owner around, Visited input input.resolve.value parts owner around n := by
  have haltered : Altered input input.resolve.value parts (.binding n) := by
    by_contra hnot
    have hsame : input.resolve.value.bindings[n]? =
        (input.start parts.decl).resolution.bindings[n]? := (resolve_finds h).alters.same _ hnot
    rw [hsame] at hb
    cases Std.TreeMap.getElem?_emptyc.symm.trans hb
  obtain ⟨owner, around, k, hvisited, hconcerns⟩ := Visited.of_altered haltered
  obtain rfl : n = k := hconcerns
  exact ⟨owner, around, hvisited⟩

/-- Whatever scope there is was opened where something was walked. -/
theorem visited_of_block (h : ScriptRecorded input.ast mk events input.root parts) {block : NodeId}
    (hblock : block ∈ input.resolve.value.blocks) : ∃ owner around n,
      Visited input input.resolve.value parts owner around n ∧
        input.ast.Concerns n (.scope block) := by
  refine Visited.of_altered ?_
  by_contra hnot
  have hsame : input.resolve.value.blocks[block]? =
      (input.start parts.decl).resolution.blocks[block]? := (resolve_finds h).alters.same _ hnot
  have hsome := Std.TreeMap.mem_iff_isSome_getElem?.mp hblock
  rw [hsame] at hsome
  cases hsome

end ResolveInput

end ScriptAnalysis
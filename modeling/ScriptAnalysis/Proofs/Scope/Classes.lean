import ScriptAnalysis.Proofs.Scope.Constructs

/-!
# Walks over classes

A class that the resolution knows is walked in a scope of its own, which declares nothing: its
fields and its methods, in code of the class, and then the classes in it.  Its members may stand in
any order in the text, so that they concern different facts follows from where they are laid out and
not from the order of the walk.
-/

namespace ScriptAnalysis

/-! ### Constructs in any order -/

/-- A fact is about something within a construct. -/
def Fact.Of (ast : Ast) (k : NodeId) (f : Fact) : Prop :=
  ∀ {a c : ParsePoint}, Laid ast a [k] c → f.Within a c

namespace Fact.Of

variable {ast : Ast} {a c : ParsePoint} {ns : List NodeId} {k l : NodeId} {f : Fact}

/-- No fact is about two constructs. -/
theorem unique (h : Laid ast a ns c) (hk : k ∈ ns) (hl : l ∈ ns) (hfk : f.Of ast k)
    (hfl : f.Of ast l) : k = l := by
  by_contra hne
  obtain ⟨b, ⟨hb, hb'⟩ | ⟨hb, hb'⟩⟩ := h.apart hk hl hne
  · exact (hfk hb).disjoint (hfl hb')
  · exact (hfl hb).disjoint (hfk hb')

end Fact.Of

/-! ### Places in a class -/

/-- The scope of a class.  Its members are no declarations of the scope. -/
def classScope (m : NodeId) : Surround := { block := m }

/-- A class that the resolution knows, the nodes in it, and those in the classes in it. -/
inductive Enters (ast : Ast) (classes : List ClassSummary) :
    NodeId → String → List Surround → NodeId → Prop
  | here {m : NodeId} {decl : ClassDecl} {c : ClassSummary} :
      ast.data? m = some (.classDecl decl) → classes.find? (·.decl == m) = some c →
      Enters ast classes m c.fullName [classScope m] m
  | member {m k n : NodeId} {decl : ClassDecl} {c : ClassSummary} {around : List Surround} :
      ast.data? m = some (.classDecl decl) → classes.find? (·.decl == m) = some c →
      k ∈ decl.fields ++ decl.methods → ast.Lies [classScope m] k around n →
      Enters ast classes m c.fullName around n
  | inner {m i n : NodeId} {decl : ClassDecl} {c : ClassSummary} {owner : String}
      {around : List Surround} :
      ast.data? m = some (.classDecl decl) → classes.find? (·.decl == m) = some c →
      i ∈ decl.inner → Enters ast classes i owner around n → Enters ast classes m owner around n

/-- The facts that the walk over a class may alter. -/
inductive TouchesClass (ast : Ast) (classes : List ClassSummary) : NodeId → Fact → Prop
  | noted {m : NodeId} {decl : ClassDecl} {c : ClassSummary} :
      ast.data? m = some (.classDecl decl) → classes.find? (·.decl == m) = some c →
      TouchesClass ast classes m (.noted m)
  | scope {m : NodeId} {decl : ClassDecl} {c : ClassSummary} :
      ast.data? m = some (.classDecl decl) → classes.find? (·.decl == m) = some c →
      TouchesClass ast classes m (.scope m)
  | member {m k n : NodeId} {decl : ClassDecl} {c : ClassSummary} {around : List Surround}
      {f : Fact} :
      ast.data? m = some (.classDecl decl) → classes.find? (·.decl == m) = some c →
      k ∈ decl.fields ++ decl.methods → ast.Lies [classScope m] k around n → ast.Concerns n f →
      TouchesClass ast classes m f
  | inner {m i : NodeId} {decl : ClassDecl} {c : ClassSummary} {f : Fact} :
      ast.data? m = some (.classDecl decl) → classes.find? (·.decl == m) = some c →
      i ∈ decl.inner → TouchesClass ast classes i f → TouchesClass ast classes m f

section

variable {ast : Ast} {classes : List ClassSummary} {a c : ParsePoint} {m n k : Nat}
  {decl : ClassDecl} {owner : String} {around : List Surround} {f : Fact}

theorem Enters.laid (h : Enters ast classes m owner around n) (hlaid : Laid ast a [m] c) :
    Laid ast a [n] c := by
  induction h with
  | here => exact hlaid
  | member hdata _ hk hlies =>
    refine hlies.laid (hlaid.part hdata ?_).1
    simpa [NodeData.parts, or_assoc] using Or.inl hk
  | inner hdata _ hi _ ih =>
    refine ih (hlaid.part hdata ?_).1
    simp [NodeData.parts, hi]

theorem Enters.of (h : Enters ast classes m owner around n) (hf : ast.Concerns n f) :
    f.Of ast m := fun hlaid => hf.within (h.laid hlaid)

theorem TouchesClass.of (h : TouchesClass ast classes m f) : f.Of ast m := by
  induction h with
  | noted => exact fun hlaid => hlaid.mem_lt (List.mem_singleton_self _)
  | scope => exact fun hlaid => hlaid.mem_lt (List.mem_singleton_self _)
  | member hdata _ hk hlies hf =>
    intro a c hlaid
    refine hf.within (hlies.laid (hlaid.part hdata ?_).1)
    simpa [NodeData.parts, or_assoc] using Or.inl hk
  | inner hdata _ hi _ ih =>
    intro a c hlaid
    refine ih (hlaid.part hdata ?_).1
    simp [NodeData.parts, hi]

end

/-! ### Members -/

/-- A class that the resolution knows, and how its members are laid out. -/
structure KnownClass (input : ResolveInput) (r : Resolution) (m : Nat) (decl : ClassDecl)
    (c : ClassSummary) (b d : ParsePoint) : Prop where
  data : input.ast.data? m = some (.classDecl decl)
  known : r.classes.find? (·.decl == m) = some c
  laid : ∃ ns, Laid input.ast b ns d ∧ ns.Perm (decl.fields ++ decl.methods ++ decl.inner)
  le_id : d.ids ≤ m
  isVar : ∀ k ∈ decl.fields, input.ast.IsVar k
  isFun : ∀ k ∈ decl.methods, input.ast.IsFun k
  isClass : ∀ k ∈ decl.inner, input.ast.IsClass k

section Members

variable (input : ResolveInput) (r : Resolution) (m : NodeId) (decl : ClassDecl)
  (c : ClassSummary)

/-- The nodes in a member of a class. -/
def AtMember (k : NodeId) (owner : String) (around : List Surround) (n : NodeId) : Prop :=
  (k ∈ decl.fields ++ decl.methods ∧ owner = c.fullName ∧
    input.ast.Lies [classScope m] k around n) ∨
  (k ∈ decl.inner ∧ Enters input.ast r.classes k owner around n)

/-- The facts that the walk over a member of a class may alter. -/
def MemberFact (k : NodeId) (f : Fact) : Prop :=
  (k ∈ decl.fields ++ decl.methods ∧ input.ast.Touches [classScope m] [k] f) ∨
  (k ∈ decl.inner ∧ TouchesClass input.ast r.classes k f)

/-- What the walk over some members of a class finds out. -/
abbrev FoundMembers (ks : List NodeId) : Resolution → Resolution → Prop :=
  Finds input r (fun owner around n => ∃ k ∈ ks, AtMember input r m decl c k owner around n)
    fun f => (∃ k ∈ ks, MemberFact input r m decl k f) ∨ f = .scope m

/-- What the walk over members finds out if they are different. -/
def FoundApart (ks : List NodeId) (s s' : WalkState) : Prop :=
  (∀ k ∈ ks, k ∈ decl.fields ++ decl.methods ++ decl.inner) → ks.Nodup →
    FoundMembers input r m decl c ks s.resolution s'.resolution

variable {input r m decl c} {a b d : ParsePoint} {k n : NodeId} {ks ls : List NodeId}
  {owner : String} {around : List Surround} {f : Fact} {r₁ r₂ r₃ : Resolution}

theorem AtMember.of (h : AtMember input r m decl c k owner around n)
    (hf : input.ast.Concerns n f) : f.Of input.ast k := by
  rcases h with ⟨-, -, hlies⟩ | ⟨-, henters⟩
  · exact fun hlaid => hf.within (hlies.laid hlaid)
  · exact henters.of hf

theorem MemberFact.of (h : MemberFact input r m decl k f) : f.Of input.ast k := by
  rcases h with ⟨-, htouches⟩ | ⟨-, htouches⟩
  · exact fun hlaid => htouches.within hlaid
  · exact htouches.of

theorem foundApart_nil (s : WalkState) : FoundApart input r m decl c [] s s :=
  fun _ _ => ⟨fun ⟨_, hk, _⟩ => absurd hk List.not_mem_nil, .refl _ _⟩

namespace KnownClass

variable (h : KnownClass input r m decl c b d)

include h

theorem laid_member (hk : k ∈ decl.fields ++ decl.methods ++ decl.inner) :
    Laid input.ast b [k] d := by
  obtain ⟨ns, hns, hperm⟩ := h.laid
  exact hns.mem (hperm.mem_iff.mpr hk)

theorem lt_of_mem {depth : Nat} (hm : m ≤ depth)
    (hk : k ∈ decl.fields ++ decl.methods ++ decl.inner) : k < depth :=
  Nat.lt_of_lt_of_le ((h.laid_member hk).mem_lt (List.mem_singleton_self k)).2
    (Nat.le_trans h.le_id hm)

theorem isStmt_method (hk : k ∈ decl.methods) : input.ast.IsStmt k := by
  obtain ⟨fdecl, f, hdata, -⟩ := h.isFun k hk
  exact ⟨_, hdata, rfl⟩

theorem directVars_method (hk : k ∈ decl.methods) : [k].flatMap input.ast.directVars = [] := by
  obtain ⟨fdecl, f, hdata, -⟩ := h.isFun k hk
  rw [List.flatMap_singleton]
  exact Ast.directVars_eq_nil hdata (by simp) (by simp) (by simp)

theorem nodup : (decl.fields ++ decl.methods ++ decl.inner).Nodup := by
  obtain ⟨ns, hns, hperm⟩ := h.laid
  exact hperm.nodup hns.nodup

theorem unique {l : NodeId} (hk : k ∈ decl.fields ++ decl.methods ++ decl.inner)
    (hl : l ∈ decl.fields ++ decl.methods ++ decl.inner) (hfk : f.Of input.ast k)
    (hfl : f.Of input.ast l) : k = l := by
  obtain ⟨ns, hns, hperm⟩ := h.laid
  exact hfk.unique hns (hperm.mem_iff.mpr hk) (hperm.mem_iff.mpr hl) hfl

/-- The class itself is no matter of its members. -/
theorem not_own (hk : k ∈ decl.fields ++ decl.methods ++ decl.inner)
    (hf : f = .noted m ∨ f = .scope m) : ¬ f.Of input.ast k := by
  obtain ⟨ns, hns, hperm⟩ := h.laid
  intro hfk
  have hwithin := hfk (hns.mem (hperm.mem_iff.mpr hk))
  rcases hf with rfl | rfl
  · exact absurd hwithin.2 (Nat.not_lt_of_le h.le_id)
  · exact absurd hwithin.2 (Nat.not_lt_of_le h.le_id)

/-- Members concern different facts, in whatever order they stand. -/
theorem append (hsub : ∀ k ∈ ks ++ ls, k ∈ decl.fields ++ decl.methods ++ decl.inner)
    (hnodup : (ks ++ ls).Nodup) (h₁ : FoundMembers input r m decl c ks r₁ r₂)
    (h₂ : FoundMembers input r m decl c ls r₂ r₃) :
    FoundMembers input r m decl c (ks ++ ls) r₁ r₃ := by
  have happart : ∀ {k l : NodeId} {f : Fact}, k ∈ ks → l ∈ ls → f.Of input.ast k →
      ¬ f.Of input.ast l := by
    intro k l f hk hl hfk hfl
    have heq := h.unique (hsub k (List.mem_append_left _ hk)) (hsub l (List.mem_append_right _ hl))
      hfk hfl
    exact (List.nodup_append.mp hnodup).2.2 k hk l hl heq
  refine (h₁.trans h₂ ?_ ?_).mono ?_ ?_
  · rintro owner around n f ⟨k, hk, hn⟩ hf (⟨l, hl, hfact⟩ | rfl)
    · exact happart hk hl (hn.of hf) hfact.of
    · exact h.not_own (hsub k (List.mem_append_left _ hk)) (.inr rfl) (hn.of hf)
  · rintro owner around n f ⟨l, hl, hn⟩ hf (⟨k, hk, hfact⟩ | rfl)
    · exact happart hk hl hfact.of (hn.of hf)
    · exact h.not_own (hsub l (List.mem_append_right _ hl)) (.inr rfl) (hn.of hf)
  · rintro owner around n ⟨k, hk, hn⟩
    rcases List.mem_append.mp hk with hk | hk
    · exact .inl ⟨k, hk, hn⟩
    · exact .inr ⟨k, hk, hn⟩
  · rintro f ((⟨k, hk, hf⟩ | hf) | (⟨k, hk, hf⟩ | hf))
    · exact .inl ⟨k, List.mem_append_left _ hk, hf⟩
    · exact .inr hf
    · exact .inl ⟨k, List.mem_append_right _ hk, hf⟩
    · exact .inr hf

/-- A member is walked, and then others that are not it. -/
theorem apart_cons {s s₁ s₂ : WalkState} (h₁ : FoundApart input r m decl c [k] s s₁)
    (h₂ : FoundApart input r m decl c ks s₁ s₂) : FoundApart input r m decl c (k :: ks) s s₂ := by
  intro hsub hnodup
  have hone : ∀ l ∈ [k], l ∈ decl.fields ++ decl.methods ++ decl.inner := fun l hl =>
    hsub l (by simp [List.mem_singleton.mp hl])
  exact h.append hsub hnodup (h₁ hone (by simp)) (h₂ (fun l hl =>
    hsub l (List.mem_cons_of_mem _ hl)) (List.nodup_cons.mp hnodup).2)

/-- A field or a method, from the walk over it in the scope of the class. -/
theorem of_found (hk : k ∈ decl.fields ++ decl.methods)
    (hfound : Found input r c.fullName [classScope m] [k] r₁ r₂) :
    FoundMembers input r m decl c [k] r₁ r₂ := by
  refine hfound.mono ?_ ?_
  · rintro owner around n ⟨l, hl, hn⟩
    obtain rfl := List.mem_singleton.mp hl
    rcases hn with ⟨-, rfl, hlies⟩ | ⟨hinner, -⟩
    · exact ⟨rfl, l, hl, hlies⟩
    · exact absurd rfl ((List.nodup_append.mp h.nodup).2.2 l hk l hinner)
  · rintro f (htouches | ⟨block, hblock, rfl⟩)
    · exact .inl ⟨k, List.mem_singleton_self k, .inl ⟨hk, htouches⟩⟩
    · cases hblock
      exact .inr rfl

/-- A class in the class. -/
theorem of_inner (hk : k ∈ decl.inner)
    (hfound : Finds input r (Enters input.ast r.classes k) (TouchesClass input.ast r.classes k)
      r₁ r₂) : FoundMembers input r m decl c [k] r₁ r₂ := by
  refine hfound.mono ?_ ?_
  · rintro owner around n ⟨l, hl, hn⟩
    obtain rfl := List.mem_singleton.mp hl
    rcases hn with ⟨hmember, -⟩ | ⟨-, henters⟩
    · exact absurd rfl ((List.nodup_append.mp h.nodup).2.2 l hmember l hk)
    · exact henters
  · exact fun htouches => .inl ⟨k, List.mem_singleton_self k, .inr ⟨hk, htouches⟩⟩

end KnownClass

end Members

/-! ### Fields -/

namespace Walk

variable {input : ResolveInput} {r : Resolution} {v : Visitors} {depth : Nat} {owner : String}
  {a c : ParsePoint} {m k : Nat} {s : WalkState}

/-- The walk over members of a class stands in the scope of the class. -/
def inClass (m : NodeId) : List Standing := [⟨classScope m, []⟩]

theorem sited_inClass {ast : Ast} {b d : ParsePoint} {ns : List NodeId}
    (hnone : ns.flatMap ast.directVars = []) (hle : d.ids ≤ m) :
    Sited ast b d ns (inClass m) := by
  refine .of_placed (fun st hst => ?_) hnone fun st hst => ?_
  · obtain rfl := List.mem_singleton.mp hst
    exact ⟨[], rfl, by simp, by simp⟩
  · obtain rfl := List.mem_singleton.mp hst
    exact hle

theorem varDecl?_of_stmt {ast : Ast} {stmt decl : Nat} {var : VarDecl}
    (h : Laid ast a [stmt] c) (hdata : ast.data? stmt = some (.varDecl decl))
    (hdecl : ast.data? decl = some (.varDeclExpr var)) : ast.varDecl? stmt = some var := by
  have hlt := (h.part hdata (k := decl) (by simp [NodeData.parts])).2
  obtain ⟨size, hsize⟩ : ∃ k, ast.size = k + 1 + 1 := ⟨ast.size - 2, by have := h.lt_size; omega⟩
  unfold Ast.varDecl?
  rw [hsize, Ast.varDeclWithin, hdata]
  dsimp only
  rw [Ast.varDeclWithin, hdecl]

/-- A field is walked like a variable, but it is no declaration of a scope. -/
theorem leads_walkField (hv : VisitorsCover input r v depth) (hk : k ≤ depth)
    (hlaid : Laid input.ast a [k] c) (hvar : input.ast.IsVar k) (hle : c.ids ≤ m)
    (hfield : ∀ decl, input.ast.data? k = some (.varDecl decl) →
      input.ast.IsFieldDecl r.classes decl) (hs : At input r owner (inClass m) s)
        (known : List String) :
    (walkField input v known k).Leads s fun _ s' => At input r owner (inClass m) s' ∧
      Found input r owner [classScope m] [k] s.resolution s'.resolution := by
  obtain ⟨decl, var, hdata, hdecl⟩ := hvar
  obtain ⟨hopens, hnone⟩ := opens?_of_varDeclExpr hdecl
  obtain ⟨hlaidDecl, hlt⟩ := hlaid.part hdata (k := decl) (by simp [NodeData.parts])
  have hclass : ∀ c, NodeData.varDecl decl ≠ .classDecl c := by simp
  obtain ⟨b, d, hparts, hallots⟩ := laid_parts hlaid hdata hclass
  have hopensField : input.ast.opens? k = none := by
    unfold Ast.opens?
    rw [hdata]
  have habove : ∀ st ∈ inClass m, c.ids ≤ st.surround.block := by
    intro st hst
    obtain rfl := List.mem_singleton.mp hst
    exact hle
  have habove' : ∀ scope ∈ [classScope m], c.ids ≤ scope.block := by
    intro scope hscope
    obtain rfl := List.mem_singleton.mp hscope
    exact hle
  have hsited : ∀ ⦃b d⦄, Allots input.ast a b d decl (.varDeclExpr var) c →
      Sited input.ast b d var.init.toList (inClass m) := fun b d h =>
    sited_inClass (directVars_init h)
      (Nat.le_trans h.le_id (Nat.le_trans (Nat.le_of_lt h.id_lt) hle))
  have hinit : ∀ init ∈ var.init, Covers input r (v.expression init) [init] := by
    intro init hinit
    obtain ⟨_, _, _, _, -, -, hm, -⟩ := hlaidDecl.of_data hdecl
    have hlt' := (hlaidDecl.part hdecl (k := init) (by simpa [NodeData.parts] using hinit)).2
    exact hv.expression init (Nat.lt_of_lt_of_le (Nat.lt_trans hlt' hlt) hk) (hm.formed init hinit)
  unfold walkField
  rw [varDecl?_of_stmt hlaid hdata hdecl, hdata]
  refine leads_bind.mpr ((leads_noteBlock k s).mono ?_)
  rintro _ s₁ ⟨hs₁, hnoted⟩
  have hstands₁ := hs.kept hs₁ fun _ _ => by simp
  refine leads_bind.mpr ((leads_checkVar hlaidDecl hdecl habove hsited hinit hstands₁
    (.refl _ s₁) fun hnot => absurd (hfield decl hdata) hnot).mono fun _ s₂ hs₂ => ?_)
  have hstands₂ := hs₂.stands
  rw [declare_eq_self (by rw [List.flatMap_singleton, hnone])] at hstands₂
  have hsame : s₂.resolution.bindings[k]? = s₁.resolution.bindings[k]? :=
    hs₂.found.same_binding hparts hallots hopensField hclass
  have hsameNoted : s₂.resolution.nodeBlock[k]? = s₁.resolution.nodeBlock[k]? :=
    hs₂.found.same_noted hparts hallots hopensField hclass
  have hfound : Found input r owner [classScope m] [k] s.resolution s₂.resolution := by
    refine .node hlaid habove' hdata hopensField hclass
      (hs₁.alters.mono ?_) hs₂.found (.refl _ _) (settled_of_not_use hdata rfl hopensField hclass ?_
        fun _ => noted_here hs hnoted hsameNoted)
    · rintro f rfl
      exact .inl rfl
    · exact hsame.trans (hs₁.same (f := .binding k) (by simp))
  split
  · exact ⟨hstands₂, hfound⟩
  · split
    · simp only [leads_bind, leads_pure]
      exact (leads_report (by simp [toString, String.toList_append]) _ s₂).mono
        fun _ s₃ hs₃ => ⟨hstands₂.kept hs₃ fun _ _ => id, hfound.quiet_after hs₃⟩
    · exact ⟨hstands₂, hfound⟩

/-! ### Classes -/

/-- Visitors walk the classes below some depth, of which the resolution need not know all. -/
def ClassesCover (input : ResolveInput) (r : Resolution) (v : Visitors) (depth : Nat) : Prop :=
  ∀ ⦃i : Nat⦄, i < depth → input.ast.IsClass i → ∀ ⦃a c s⦄, Laid input.ast a [i] c →
    s.resolution.header = r.header → (v.classDecl i).Leads s fun _ s' =>
      s.Changes (TouchesClass input.ast r.classes i) s' ∧
        Finds input r (Enters input.ast r.classes i) (TouchesClass input.ast r.classes i)
          s.resolution s'.resolution

section

variable {decl : ClassDecl} {cl : ClassSummary} {b d : ParsePoint}

theorem KnownClass.of_laid (hlaid : Laid input.ast a [m] c)
    (hdata : input.ast.data? m = some (.classDecl decl))
    (hknown : r.classes.find? (·.decl == m) = some cl) :
    ∃ b d, KnownClass input r m decl cl b d := by
  obtain ⟨b, d, e, ns, hns, hperm, hm, he⟩ := hlaid.of_data hdata
  obtain ⟨hfields, hmethods, hinner, -, himports, hbody⟩ := hm.formed
  refine ⟨b, d, hdata, hknown, ⟨ns, hns, ?_⟩, hm.le_id, hfields, hmethods, hinner⟩
  have hparts : ns.Perm (decl.fields ++ decl.methods ++ decl.inner ++ decl.imports ++
      decl.body.toList) := hperm
  rwa [himports, hbody, List.append_nil, Option.toList_none, List.append_nil] at hparts

/-- The walk over an inner class leaves the scope of the class as it is. -/
theorem at_inClass (h : KnownClass input r m decl cl b d) {k : NodeId} (hk : k ∈ decl.inner)
    {s s' : WalkState} (hs : At input r cl.fullName (inClass m) s)
    (hs' : s.Changes (TouchesClass input.ast r.classes k) s') :
    At input r cl.fullName (inClass m) s' := by
  refine hs.kept hs' fun st hst htouches => ?_
  obtain rfl := List.mem_singleton.mp hst
  exact h.not_own (List.mem_append_right _ hk) (.inr rfl) htouches.of

/-- The members of a class are walked in the scope of the class: its fields, its methods, and the
    classes in it. -/
theorem leads_members (h : KnownClass input r m decl cl b d) (hv : VisitorsCover input r v depth)
    (hc : ClassesCover input r v depth) (hm : m ≤ depth)
    (hs : At input r cl.fullName (inClass m) s) :
    (do
      let _ ← decl.fields.foldlM (walkField input v) []
      decl.methods.forM v.statement
      decl.inner.forM v.classDecl : Walk Unit).Leads s fun _ s' =>
        At input r cl.fullName (inClass m) s' ∧
          FoundMembers input r m decl cl (decl.fields ++ decl.methods ++ decl.inner) s.resolution
            s'.resolution := by
  have hmem (k : NodeId) (hk : k ∈ decl.fields ++ decl.methods ++ decl.inner) := h.laid_member hk
  have hlt (k : NodeId) (hk : k ∈ decl.fields ++ decl.methods ++ decl.inner) := h.lt_of_mem hm hk
  have hnodup := h.nodup
  have hmembers := (List.nodup_append.mp hnodup).1
  have hfieldsIn : ∀ k ∈ decl.fields, k ∈ decl.fields ++ decl.methods ++ decl.inner := fun k hk =>
    List.mem_append_left _ (List.mem_append_left _ hk)
  have hmethodsIn : ∀ k ∈ decl.methods, k ∈ decl.fields ++ decl.methods ++ decl.inner :=
    fun k hk => List.mem_append_left _ (List.mem_append_right _ hk)
  have hinnerIn : ∀ k ∈ decl.inner, k ∈ decl.fields ++ decl.methods ++ decl.inner := fun k hk =>
    List.mem_append_right _ hk
  simp only [leads_bind]
  refine (leads_foldlM (I := At input r cl.fullName (inClass m)) foundApart_nil h.apart_cons
    (fun k hk known s₁ hs₁ => ?_) [] hs).mono ?_
  · have hk' := List.mem_append_left decl.methods hk
    have hall := hfieldsIn k hk
    have hfield : ∀ decl, input.ast.data? k = some (.varDecl decl) →
        input.ast.IsFieldDecl r.classes decl := fun decl hdata =>
      ⟨m, _, k, h.data, by rw [h.known]; rfl, hk, hdata⟩
    refine (leads_walkField hv (Nat.le_of_lt (hlt k hall)) (hmem k hall) (h.isVar k hk) h.le_id
      hfield hs₁ known).mono ?_
    rintro _ s₂ ⟨hs₂, hfound⟩
    exact ⟨hs₂, fun _ _ => h.of_found hk' hfound⟩
  rintro _ s₁ ⟨hs₁, hfields⟩
  refine (leads_forM (I := At input r cl.fullName (inClass m)) foundApart_nil h.apart_cons
    (fun k hk s₂ hs₂ => ?_) hs₁).mono ?_
  · have hk' := List.mem_append_right decl.fields hk
    have hall := hmethodsIn k hk
    have hnone := h.directVars_method hk
    refine (hv.statement k (hlt k hall) (h.isStmt_method hk) (hmem k hall)
      (sited_inClass hnone h.le_id) hs₂).mono fun _ s₃ hs₃ => ?_
    have hstands := hs₃.stands
    rw [declare_eq_self hnone] at hstands
    exact ⟨hstands, fun _ _ => h.of_found hk' hs₃.found⟩
  rintro _ s₂ ⟨hs₂, hmethods⟩
  refine (leads_forM (I := At input r cl.fullName (inClass m)) foundApart_nil h.apart_cons
    (fun k hk s₃ hs₃ => ?_) hs₂).mono ?_
  · have hall := hinnerIn k hk
    refine (hc (hlt k hall) (h.isClass k hk) (hmem k hall) hs₃.header).mono ?_
    rintro _ s₄ ⟨hs₄, hfinds⟩
    exact ⟨at_inClass h hk hs₃ hs₄, fun _ _ => h.of_inner hk hfinds⟩
  rintro _ s₃ ⟨hs₃, hinner⟩
  have hboth := h.append (fun k hk => List.mem_append_left _ hk) hmembers
    (hfields hfieldsIn (List.nodup_append.mp hmembers).1)
    (hmethods hmethodsIn (List.nodup_append.mp hmembers).2.1)
  exact ⟨hs₃, h.append (fun k hk => hk) hnodup hboth
    (hinner hinnerIn (List.nodup_append.mp hnodup).2.1)⟩

end

/-- What is found out of a class itself: its scope is noted, and holds nothing. -/
theorem settled_class {decl : ClassDecl} {cl : ClassSummary} {b d : ParsePoint}
    {s₃ s₄ : WalkState} (h : KnownClass input r m decl cl b d)
    (hs : At input r cl.fullName (inClass m) s₄)
    (hentry : s.resolution.Alters (fun f => f = .noted m ∨ f = .scope m) s₃.resolution)
    (hmembers : FoundMembers input r m decl cl (decl.fields ++ decl.methods ++ decl.inner)
      s₃.resolution s₄.resolution) (hnoted : s₃.resolution.nodeBlock[m]? = some m) :
    Settled input r cl.fullName [classScope m] m s.resolution s₄.resolution := by
  have hopens : input.ast.opens? m = none := by
    unfold Ast.opens?
    rw [h.data]
  have hname : ∀ name, ¬ input.ast.IsName m name := by
    rintro name (hname | ⟨value, hname⟩)
    · cases h.data.symm.trans hname
    · cases h.data.symm.trans hname
  have hkept : (Fact.noted m).Same s₃.resolution s₄.resolution := by
    refine hmembers.alters.same _ ?_
    rintro (⟨k, hk, hfact⟩ | heq)
    · exact h.not_own hk (.inl rfl) hfact.of
    · cases heq
  have hbinding : (Fact.binding m).Same s.resolution s₄.resolution := by
    refine (hentry.same _ (by simp)).trans (hmembers.alters.same _ ?_)
    rintro (⟨k, hk, hfact⟩ | heq)
    · obtain ⟨ns, hns, hperm⟩ := h.laid
      have hwithin := hfact.of (hns.mem (hperm.mem_iff.mpr hk))
      exact absurd hwithin.2 (Nat.not_lt_of_le h.le_id)
    · cases heq
  refine ⟨fun hnone => ?_, fun _ _ => Eq.trans hkept hnoted, fun scope hscope => ?_,
    fun scope hscope => ?_, fun _ _ => hs.scopes.1, fun name h => absurd h (hname name)⟩
  · have hat : input.bindingAt r cl.fullName [classScope m] m = none := by
      unfold ResolveInput.bindingAt
      rw [h.data]
    rw [hat]
    exact Eq.trans hbinding hnone
  · cases hopens.symm.trans hscope
  · cases hopens.symm.trans hscope

theorem leads_walkClass (hv : VisitorsCover input r v depth) (hc : ClassesCover input r v depth)
    (hm : m ≤ depth) (hclass : input.ast.IsClass m) (hlaid : Laid input.ast a [m] c)
    (hheader : s.resolution.header = r.header) :
    (walkClass input v m).Leads s fun _ s' =>
      s.Changes (TouchesClass input.ast r.classes m) s' ∧
        Finds input r (Enters input.ast r.classes m) (TouchesClass input.ast r.classes m)
          s.resolution s'.resolution := by
  obtain ⟨decl, hdata, hscript⟩ := hclass
  have hclasses : s.resolution.classes = r.classes := congrArg Resolution.Header.classes hheader
  have hdecl : input.ast.classDecl? m = some decl := by
    unfold Ast.classDecl?
    rw [hdata]
  unfold walkClass
  simp only [leads_bind, leads_get, hclasses, hdecl]
  cases hknown : r.classes.find? (·.decl == m) with
  | none =>
    refine ⟨.refl _ s, ⟨fun henters => ?_, .refl _ _⟩⟩
    cases henters with
    | here _ h => cases hknown.symm.trans h
    | member _ h => cases hknown.symm.trans h
    | inner _ h => cases hknown.symm.trans h
  | some cl =>
    obtain ⟨b, d, h⟩ := KnownClass.of_laid hlaid hdata hknown
    simp only [leads_bind, leads_modify]
    refine (leads_checkBase m decl cl s).mono fun _ s₁ hs₁ => ?_
    refine (leads_openScope m none _).mono ?_
    rintro _ s₂ ⟨hs₂, hblock₂, howner₂, hheld₂⟩
    refine (leads_noteBlock m s₂).mono ?_
    rintro _ s₃ ⟨hs₃, hnoted⟩
    have hstands₂ : At input r cl.fullName (inClass m) s₂ := by
      refine ⟨hs₂.header.trans (hs₁.alters.header.trans hheader), howner₂, hblock₂, hheld₂, ?_⟩
      exact ⟨by simp, trivial⟩
    have hstands₃ := hstands₂.kept hs₃ fun _ _ => by simp
    suffices hwalk : (do
        let _ ← decl.fields.foldlM (walkField input v) []
        decl.methods.forM v.statement
        decl.inner.forM v.classDecl : Walk Unit).Leads s₃ fun _ s₄ =>
          s.Changes (TouchesClass input.ast r.classes m)
            { s₄ with block := s.block, owner := s.owner } ∧
          Finds input r (Enters input.ast r.classes m) (TouchesClass input.ast r.classes m)
            s.resolution s₄.resolution from hwalk
    refine (leads_members h hv hc hm hstands₃).mono ?_
    rintro _ s₄ ⟨hs₄, hmembers⟩
    have hentry : s.resolution.Alters (fun f => f = .noted m ∨ f = .scope m) s₃.resolution := by
      refine (hs₁.quiet _).alters.trans ?_
      exact (hs₂.mono fun f hf => .inr hf).trans (hs₃.alters.mono fun f hf => .inl hf)
    have hfound := (Finds.none hentry).trans hmembers (fun hn => hn.elim) <| by
      rintro owner around n f ⟨k, hk, hn⟩ hf hown
      exact h.not_own hk hown (hn.of hf)
    have hfinds : Finds input r (Enters input.ast r.classes m) (TouchesClass input.ast r.classes m)
        s.resolution s₄.resolution := by
      refine ⟨fun henters => ?_, hfound.alters.mono ?_⟩
      · cases henters with
        | here hdata' hknown' =>
          cases hdata.symm.trans hdata'
          cases hknown.symm.trans hknown'
          exact settled_class h hs₄ hentry hmembers (hnoted.trans (by rw [hblock₂]; rfl))
        | member hdata' hknown' hk hlies =>
          cases hdata.symm.trans hdata'
          cases hknown.symm.trans hknown'
          exact hfound.settled (.inr ⟨_, List.mem_append_left _ hk, .inl ⟨hk, rfl, hlies⟩⟩)
        | inner hdata' hknown' hi henters =>
          cases hdata.symm.trans hdata'
          exact hfound.settled (.inr ⟨_, List.mem_append_right _ hi, .inr ⟨hi, henters⟩⟩)
      · rintro f ((rfl | rfl) | (⟨k, hk, hfact⟩ | rfl))
        · exact .noted hdata hknown
        · exact .scope hdata hknown
        · rcases hfact with ⟨hk, l, hl, around, n, hlies, hf⟩ | ⟨hk, htouches⟩
          · obtain rfl := List.mem_singleton.mp hl
            exact .member hdata hknown hk hlies hf
          · exact .inner hdata hknown hk htouches
        · exact .scope hdata hknown
    exact ⟨⟨hfinds.alters, rfl, rfl⟩, hfinds⟩

theorem classesCover_visitors (depth : Nat) :
    ClassesCover input r (visitors input depth) depth := by
  induction depth with
  | zero => exact fun i hi => absurd hi (Nat.not_lt_zero i)
  | succ depth ih =>
    intro i hi hclass a c s hlaid hheader
    exact leads_walkClass (covers_visitors depth) ih (Nat.le_of_lt_succ hi) hclass hlaid hheader

end Walk

end ScriptAnalysis
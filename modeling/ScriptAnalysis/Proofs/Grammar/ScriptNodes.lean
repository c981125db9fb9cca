import ScriptAnalysis.Proofs.Grammar.Scripts
import ScriptAnalysis.Proofs.Grammar.StatementNodes
import ScriptAnalysis.Proofs.Token.Spelling

/-!
# What a script leaves behind

The members of a class, like the parts of a script, stand in any order, and their nodes are kept
apart by what they are.  The circle of the productions is closed by induction on the depth, and
with it every script records its nodes in its transcript.
-/

namespace ScriptAnalysis

open ParseState Production

namespace Rules

variable {r : Rules} {s : ParseState}

/-! ### Classes -/

/-- The members read so far, with what they are. -/
structure ReadsMembers (s : ParseState) (read : MembersRead) (s' : ParseState) : Prop where
  reads : ∃ ns, ReadsSome s ns s' ∧ ns.Perm (read.fields ++ read.methods ++ read.inner)
  fields : ∀ n ∈ read.fields, s'.ast.IsVar n
  methods : ∀ n ∈ read.methods, s'.ast.IsFun n
  inner : ∀ n ∈ read.inner, s'.ast.IsClass n

namespace ReadsMembers

variable {s₁ s₂ : ParseState} {read : MembersRead} {n : NodeId}

theorem fit (h : ReadsMembers s read s₁) : s₁.Fit := by
  obtain ⟨ns, hns, -⟩ := h.reads
  exact hns.fit

theorem spells (h : ReadsMembers s read s₁) (hr : r.Spells s.draft.ahead) :
    r.Spells s₁.draft.ahead := by
  obtain ⟨ns, hns, -⟩ := h.reads
  exact hr.later hns

theorem skip (h : ReadsMembers s read s₁) (k : ReadsSome s₁ [] s₂) : ReadsMembers s read s₂ := by
  obtain ⟨ns, hns, hperm⟩ := h.reads
  refine ⟨⟨ns, by simpa using hns.trans k, hperm⟩, ?_, ?_, ?_⟩
  · exact fun n hn => k.ast.isVar (h.fields n hn)
  · exact fun n hn => k.ast.isFun (h.methods n hn)
  · exact fun n hn => k.ast.isClass (h.inner n hn)

theorem field (h : ReadsMembers s read s₁) (k : ReadsSome s₁ [n] s₂) (hn : s₂.ast.IsVar n) :
    ReadsMembers s { read with fields := n :: read.fields } s₂ := by
  obtain ⟨ns, hns, hperm⟩ := h.reads
  refine ⟨⟨ns ++ [n], hns.trans k, ?_⟩, ?_, ?_, ?_⟩
  · exact (List.perm_append_singleton n ns).trans (hperm.cons n)
  · intro i hi
    rcases List.mem_cons.mp hi with rfl | hi
    · exact hn
    · exact k.ast.isVar (h.fields i hi)
  · exact fun n hn => k.ast.isFun (h.methods n hn)
  · exact fun n hn => k.ast.isClass (h.inner n hn)

theorem method (h : ReadsMembers s read s₁) (k : ReadsSome s₁ [n] s₂) (hn : s₂.ast.IsFun n) :
    ReadsMembers s { read with methods := n :: read.methods } s₂ := by
  obtain ⟨ns, hns, hperm⟩ := h.reads
  refine ⟨⟨ns ++ [n], hns.trans k, ?_⟩, ?_, ?_, ?_⟩
  · refine (List.perm_append_singleton n ns).trans ((hperm.cons n).trans ?_)
    rw [List.append_assoc, List.append_assoc]
    exact List.perm_middle.symm
  · exact fun n hn => k.ast.isVar (h.fields n hn)
  · intro i hi
    rcases List.mem_cons.mp hi with rfl | hi
    · exact hn
    · exact k.ast.isFun (h.methods i hi)
  · exact fun n hn => k.ast.isClass (h.inner n hn)

theorem innerClass (h : ReadsMembers s read s₁) (k : ReadsSome s₁ [n] s₂)
    (hn : s₂.ast.IsClass n) : ReadsMembers s { read with inner := n :: read.inner } s₂ := by
  obtain ⟨ns, hns, hperm⟩ := h.reads
  refine ⟨⟨ns ++ [n], hns.trans k, ?_⟩, ?_, ?_, ?_⟩
  · exact (List.perm_append_singleton n ns).trans ((hperm.cons n).trans List.perm_middle.symm)
  · exact fun n hn => k.ast.isVar (h.fields n hn)
  · exact fun n hn => k.ast.isFun (h.methods n hn)
  · intro i hi
    rcases List.mem_cons.mp hi with rfl | hi
    · exact hn
    · exact k.ast.isClass (h.inner i hi)

end ReadsMembers

theorem classMember_ensures {s₀ : ParseState} {read : MembersRead} (hr : r.Records)
    (hspells : r.Spells s.draft.ahead) (h : ReadsMembers s₀ read s) :
    (r.classMember read).Ensures s fun read s' => ReadsMembers s₀ read s' := by
  unfold classMember declarationShape
  simp only [ensures_bind, ensures_kind]
  split
  · simp only [ensures_bind, ensures_pure]
    exact (hr.classDecl s h.fit hspells).mono fun n s' hn => h.innerClass hn.1 hn.2
  · simp only [ensures_bind, ensures_pure]
    exact (advance_reads h.fit).mono fun _ s' hs' => h.skip hs'
  · simp only [ensures_bind, ensures_get, ensures_pure]
    split
    · next hshape =>
      simp only [ensures_bind, ensures_pure]
      exact (funDecl_ensures hr h.fit hshape _).mono fun n s' hn => h.method hn.1 hn.2
    · next hshape =>
      simp only [ensures_bind, ensures_pure]
      refine (varDecl_ensures hr h.fit _ _ (.inl (startsVar_of_shape hshape)) (by simp)).mono
        fun n s₁ hn => ?_
      exact (accept_reads hn.1.fit (by decide)).mono fun _ s₂ hs₂ => (h.field hn.1 hn.2).skip hs₂
    · simp only [ensures_bind, ensures_pure]
      exact (skipUnexpected_reads h.fit _ _).mono fun _ s' hs' => h.skip hs'

theorem classMembers_ensures (hr : r.Records) (hspells : r.Spells s.draft.ahead) (h : s.Fit) :
    r.classMembers.Ensures s fun read s' => ReadsMembers s read s' := by
  unfold classMembers
  refine repeatFrom_ensures (ReadsMembers s)
    ⟨⟨[], .refl h, .refl _⟩, by simp, by simp, by simp⟩ fun read s₁ hread => ?_
  simp only [ensures_bind, ensures_at?, ensures_atEnd]
  split
  · exact ensures_pure.mpr hread
  · simp only [ensures_bind, ensures_current, ensures_pure]
    refine (classMember_ensures hr (hread.spells hspells) hread).mono fun read s₂ hs₂ => ?_
    exact (skipIfStuck_reads hs₂.fit _).mono fun _ s₃ hs₃ => hs₂.skip hs₃

theorem isName_of_className {kind : NodeKind} (h : (kind == .className) = true) :
    kind.isName = true := by
  cases beq_iff_eq.mp h
  rfl

/-- A class leads to the name that stands behind its keyword. -/
theorem finish_class_ensures {s₀ s₂ s₃ s₅ : ParseState} {m j : MarkerId} {start : Nat}
    {tt ts : List Token} {after : List Event} {ns : List NodeId} {c : ClassDecl}
    (hin : Inside m s₀ s₅ (tt.map .token ++ leafEvents j ts ++ after) ns)
    (hname : ReadsName s₂ s₃ c.name .ofClass j ts) (k : Advances s₃ s₅)
    (hafter : Nameless s₅.draft.marker after)
    (hspelled : s₂.draft.current.kind = .ident → c.name ≠ "")
    (harranged : (NodeData.classDecl c).Arranged ns)
    (hformed : (NodeData.classDecl c).Formed s₅.ast) :
    (finish m start (.classDecl c)).Ensures s₅ fun n s' =>
      ReadsSome s₀ [n] s' ∧ s'.ast.IsClass n := by
  unfold finish
  simp only [ensures_bind, ensures_allocFrom, ensures_pure]
  refine Ensures.mono (close_ensures hin hin.recorded.laid (.refl _) (by simp) harranged
    (by simp [NodeKind.of?]) hformed (fun hsolid => by cases hsolid) (by simp)
      (by simp) (by simp) ?_)
    fun _ s' hs' => ?_
  · rintro mk hmk ⟨markers, hmarkers, hfound⟩
    obtain ⟨hnames, hmissing, -⟩ := hname.names k (extends_allocated _ _ _) rfl hin.not_mem
      hin.recorded.balanced hmk hmarkers hfound (.tokens tt) hafter
      (fun _ => isName_of_className) rfl
    exact ⟨hformed.2.2.2.1, hnames, fun hempty => hmissing fun hident => hspelled hident hempty⟩
  · exact ⟨hs'.reads_some (by simp), c, hs'.found, hformed.2.2.2.1⟩

theorem aClass_ensures (hr : r.Records) (hspells : r.Spells s.draft.ahead) (h : s.Fit) :
    r.aClass.Ensures s fun n s' => ReadsSome s [n] s' ∧ s'.ast.IsClass n := by
  unfold aClass
  simp only [ensures_bind, ensures_here]
  refine (openMarker_ensures h).mono fun m s₁ hs₁ => ?_
  have hw := hs₁.1
  obtain ⟨tt, hadvance, -⟩ := reads_advance hw.fit
  refine ensures_modify.mpr ?_
  have hopened : r.Spells s₁.draft.ahead := fun t ht =>
    hspells t (hw.ahead ▸ List.mem_append_right _ ht)
  have hspells := hopened.later (.of_tokens hadvance)
  refine (name_ensures hadvance.fit _).mono fun found s₃ hs₃ => ?_
  obtain ⟨htext, j, ts, hname⟩ := hs₃
  have hhead := hw.trans (hadvance.trans hname.leaf.reads)
  have hfinish (read : MembersRead) {s₅ : ParseState} (start : Nat) (base : Option String)
      (hread : ReadsMembers s₃ read s₅) : (finish m start (.classDecl {
        name := found.1
        package := r.package
        base := base
        fields := read.fields.reverse
        methods := read.methods.reverse
        inner := read.inner.reverse })).Ensures s₅ fun n s' =>
      ReadsSome s [n] s' ∧ s'.ast.IsClass n := by
    obtain ⟨ns, ⟨after, hafter, hnafter⟩, hperm⟩ := hread.reads
    have hin := hhead.trans hafter
    rw [List.nil_append] at hin
    refine finish_class_ensures hin hname hafter.toAdvances hnafter (fun hident => ?_) ?_ ?_
    · rw [htext hident]
      exact hspells _ (Draft.current_mem _ (by simp [hident])) hident
    · have hreverse : (read.fields ++ read.methods ++ read.inner).Perm
          (read.fields.reverse ++ read.methods.reverse ++ read.inner.reverse) :=
        ((List.reverse_perm _).symm.append (List.reverse_perm _).symm).append
          (List.reverse_perm _).symm
      simpa [NodeData.Arranged, NodeData.parts] using hperm.trans hreverse
    · exact ⟨fun n hn => hread.fields n (List.mem_reverse.mp hn),
        fun n hn => hread.methods n (List.mem_reverse.mp hn),
        fun n hn => hread.inner n (List.mem_reverse.mp hn), rfl, rfl, rfl⟩
  have hbase : (do if ← accept .extendsKw then some <$> TypeRef.name <$> r.type else pure none :
      Production (Option String)).Ensures s₃ fun _ s' => ReadsSome s₃ [] s' := by
    rw [ensures_bind]
    refine (accept_reads hname.leaf.reads.fit (by decide)).mono fun extended s₄ hs₄ => ?_
    split
    · simp only [ensures_map]
      refine (type_ensures hs₄.fit).mono fun _ s' hs' => ?_
      obtain ⟨mt, tt, htype⟩ := hs'
      exact hs₄.trans htype.reads_some
    · exact ensures_pure.mpr hs₄
  rw [ensures_bind] at hbase
  simp only [ite_bind, ensures_bind]
  refine hbase.mono fun extended s₄ hs₄ => hs₄.mono fun base s₅ hs₅ => ?_
  refine (expect_reads hs₅.fit (by decide) _ _).mono fun found s₆ hs₆ => ?_
  have hbrace := hs₅.trans hs₆
  split
  · simp only [ensures_bind]
    have hbehind : r.Spells s₃.draft.ahead := fun t ht =>
      hspells t (hname.leaf.reads.ahead ▸ List.mem_append_right _ ht)
    refine (classMembers_ensures hr (hbehind.later hbrace) hs₆.fit).mono fun read s₇ hread => ?_
    refine (expect_reads hread.fit (by decide) _ _).mono fun _ s₈ hs₈ => ?_
    have hread := hread.skip hs₈
    obtain ⟨ns, hns, hperm⟩ := hread.reads
    exact hfinish read _ base ⟨⟨ns, by simpa using hbrace.trans hns, hperm⟩, hread.fields,
      hread.methods, hread.inner⟩
  · have hnone : ReadsMembers s₃ {} s₆ :=
      ⟨⟨[], by simpa using hbrace, .refl _⟩, by simp, by simp, by simp⟩
    exact hfinish {} _ base hnone

/-! ### The circle of the productions -/

theorem upTo_source (source : String) (package : Option String) (depth : Nat) :
    (upTo source package depth).source = source := by
  cases depth <;> rfl

/-- By induction on the depth: constructs nested deeper are recorded by the productions within. -/
theorem upTo_records (source : String) (package : Option String) (depth : Nat) :
    (upTo source package depth).Records := by
  induction depth with
  | zero =>
    exact ⟨fun _ _ => ensures_throw, fun _ _ => ensures_throw, fun _ _ => ensures_throw,
      fun _ _ _ => ensures_throw⟩
  | succ depth ih =>
    refine ⟨fun _ h => expression_ensures ih h, fun _ h => operand_ensures ih h,
      fun _ h => aStatement_ensures ih h, fun s h hspells => aClass_ensures ih ?_ h⟩
    intro t ht hident
    unfold text
    rw [upTo_source]
    exact hspells t ht hident

end Rules

/-! ### Scripts -/

namespace Script

variable {s : ParseState}

/-- The name of the package belongs to no declaration, and is not taken for that of a class. -/
theorem package_ensures (h : s.Fit) (source : String) :
    (package source).Ensures s fun _ s' => ∃ p, Reads s s' p [] ∧
      Passed (fun kind => kind == .className) s'.draft.marker p := by
  have hbehind {s₁ s' : ParseState} {p₁ : List Event} {m : MarkerId} {ts : List Token}
      (hs₁ : Reads s s₁ p₁ []) (hp₁ : Nameless s₁.draft.marker p₁)
      (hleaf : Reads s₁ s' (leafEvents m ts) [])
      (hkind : (s'.draft.marker m).kind.any (fun kind => kind == .className) = false) :
      ∃ p, Reads s s' p [] ∧ Passed (fun kind => kind == .className) s'.draft.marker p :=
    ⟨_, hs₁.trans hleaf, ((hs₁.nameless_later hp₁ hleaf.toAdvances) _
      fun _ => Rules.isName_of_className).append (.leaf ts hkind)⟩
  unfold package
  simp only [ensures_bind, ensures_here]
  refine (advance_reads h).mono fun _ s₁ hs₁ => ?_
  obtain ⟨p₁, hs₁, hp₁⟩ := hs₁
  refine (openMarker_ensures hs₁.fit).mono fun m s₂ hs₂ => ?_
  obtain ⟨hw, -, -⟩ := hs₂
  refine (Rules.dottedPath_ensures hw.fit _).mono fun path s₃ hs₃ => ?_
  rcases hs₃ with ⟨hpath, -, -, p, hp⟩ | ⟨rfl, rfl, -⟩
  · obtain ⟨path, rfl⟩ := Option.ne_none_iff_exists'.mp hpath
    simp only [ensures_bind, ensures_pure]
    refine (finish_leaf_ensures (hw.trans hp.reads) rfl hp.tokens hp.significant).mono
      fun n s₄ hs₄ => ?_
    obtain ⟨⟨ts, -, hreads, hmeans⟩, -⟩ := hs₄
    exact hbehind hs₁ hp₁ hreads (by rw [hmeans.kind]; rfl)
  · simp only [ensures_bind, ensures_pure]
    refine (reportHere_ensures hw _ _).mono fun _ s₄ hs₄ => ?_
    have hleaf : Reads s₁ s₄ (leafEvents m []) [] := hs₄.1.reads
    exact hbehind hs₁ hp₁ hleaf (by rw [hs₄.2]; rfl)

theorem importDecl_ensures (h : s.Fit) (source : String) :
    (importDecl source).Ensures s fun n s' => ReadsSome s [n] s' ∧ s'.ast.IsImport n := by
  unfold importDecl
  simp only [ensures_bind, ensures_here]
  refine (openMarker_ensures h).mono fun m s₁ hs₁ => ?_
  have hw := hs₁.1
  refine (advance_reads hw.fit).mono fun _ s₂ hs₂ => ?_
  have hfinish (path : String) (rename : Option String) (start : Nat) {s₃ : ParseState}
      (hs₃ : ReadsSome s₁ [] s₃) : (finish m start (.importDecl path rename)).Ensures s₃
      fun n s' => ReadsSome s [n] s' ∧ s'.ast.IsImport n :=
    Ensures.mono (Rules.finish_reads hw hs₃ rfl rfl (by simp [NodeKind.of?]) trivial)
      fun _ _ hs' => ⟨hs'.1, path, rename, hs'.2⟩
  have hrest (path : String) (start : Nat) {s₃ : ParseState} (hs₃ : ReadsSome s₁ [] s₃) :
      (do
        let mut rename := none
        if ← accept .asKw then
          let t ← current
          if ← expect source .ident "alias" then rename := some (t.textIn source)
        finish m start (.importDecl path rename) : Production NodeId).Ensures s₃
      fun n s' => ReadsSome s [n] s' ∧ s'.ast.IsImport n := by
    simp only [ensures_bind]
    refine (accept_reads hs₃.fit (by decide)).mono fun renamed s₄ hs₄ => ?_
    split
    · simp only [ensures_bind, ensures_current]
      refine (expect_reads hs₄.fit (by decide) _ _).mono fun found s₅ hs₅ => ?_
      split
      · exact hfinish _ _ _ ((hs₃.trans hs₄).trans hs₅)
      · exact hfinish _ _ _ ((hs₃.trans hs₄).trans hs₅)
    · exact hfinish _ _ _ (hs₃.trans hs₄)
  refine (Rules.dottedPath_ensures hs₂.fit _).mono fun path s₃ hs₃ => ?_
  rcases hs₃ with ⟨hpath, -, -, p, hp⟩ | ⟨rfl, rfl, -⟩
  · obtain ⟨path, rfl⟩ := Option.ne_none_iff_exists'.mp hpath
    exact hrest _ _ (hs₂.trans hp.reads_some)
  · simp only [ensures_bind]
    refine (expect_reads hs₂.fit (by decide) _ _).mono fun _ s₄ hs₄ => ?_
    refine ensures_pure.mpr ?_
    simpa only [ensures_bind] using hrest "" s₁.draft.current.offset (hs₂.trans hs₄)

/-- The parts of a script read so far, with what they are. -/
structure ReadsParts (s : ParseState) (read : PartsRead) (s' : ParseState) : Prop where
  reads : ∃ ns, ReadsSome s ns s' ∧ ns.Perm (read.imports ++ read.classes ++ read.stmts) ∧
    read.stmts.reverse.Sublist ns
  imports : ∀ n ∈ read.imports, s'.ast.IsImport n
  classes : ∀ n ∈ read.classes, s'.ast.IsClass n
  stmts : ∀ n ∈ read.stmts, s'.ast.IsStmt n

namespace ReadsParts

variable {s₁ s₂ : ParseState} {read : PartsRead} {n : NodeId}

theorem fit (h : ReadsParts s read s₁) : s₁.Fit := by
  obtain ⟨ns, hns, -⟩ := h.reads
  exact hns.fit

theorem spells {r : Rules} (h : ReadsParts s read s₁) (hr : r.Spells s.draft.ahead) :
    r.Spells s₁.draft.ahead := by
  obtain ⟨ns, hns, -⟩ := h.reads
  exact hr.later hns

theorem skip (h : ReadsParts s read s₁) (k : ReadsSome s₁ [] s₂) : ReadsParts s read s₂ := by
  obtain ⟨ns, hns, hperm, hsub⟩ := h.reads
  exact ⟨⟨ns, by simpa using hns.trans k, hperm, hsub⟩,
    fun n hn => k.ast.isImport (h.imports n hn), fun n hn => k.ast.isClass (h.classes n hn),
    fun n hn => k.ast.isStmt (h.stmts n hn)⟩

theorem importDecl (h : ReadsParts s read s₁) (k : ReadsSome s₁ [n] s₂)
    (hn : s₂.ast.IsImport n) : ReadsParts s { read with imports := n :: read.imports } s₂ := by
  obtain ⟨ns, hns, hperm, hsub⟩ := h.reads
  refine ⟨⟨ns ++ [n], hns.trans k, ?_, hsub.trans (List.sublist_append_left _ _)⟩, ?_, ?_, ?_⟩
  · exact (List.perm_append_singleton n ns).trans (hperm.cons n)
  · intro i hi
    rcases List.mem_cons.mp hi with rfl | hi
    · exact hn
    · exact k.ast.isImport (h.imports i hi)
  · exact fun n hn => k.ast.isClass (h.classes n hn)
  · exact fun n hn => k.ast.isStmt (h.stmts n hn)

theorem classDecl (h : ReadsParts s read s₁) (k : ReadsSome s₁ [n] s₂) (hn : s₂.ast.IsClass n) :
    ReadsParts s { read with classes := n :: read.classes } s₂ := by
  obtain ⟨ns, hns, hperm, hsub⟩ := h.reads
  refine ⟨⟨ns ++ [n], hns.trans k, ?_, hsub.trans (List.sublist_append_left _ _)⟩, ?_, ?_, ?_⟩
  · refine (List.perm_append_singleton n ns).trans ((hperm.cons n).trans ?_)
    rw [List.append_assoc, List.append_assoc]
    exact List.perm_middle.symm
  · exact fun n hn => k.ast.isImport (h.imports n hn)
  · intro i hi
    rcases List.mem_cons.mp hi with rfl | hi
    · exact hn
    · exact k.ast.isClass (h.classes i hi)
  · exact fun n hn => k.ast.isStmt (h.stmts n hn)

theorem stmt {stmt : Option NodeId} (h : ReadsParts s read s₁)
    (k : ReadsAll Ast.IsStmt s₁ stmt.toList s₂) :
    ReadsParts s { read with stmts := stmt.toList ++ read.stmts } s₂ := by
  cases stmt with
  | none => exact h.skip k.reads
  | some n =>
    obtain ⟨ns, hns, hperm, hsub⟩ := h.reads
    refine ⟨⟨ns ++ [n], hns.trans k.reads, ?_, ?_⟩, ?_, ?_, ?_⟩
    · exact (List.perm_append_singleton n ns).trans ((hperm.cons n).trans List.perm_middle.symm)
    · rw [Option.toList_some, List.singleton_append, List.reverse_cons]
      exact hsub.append (.refl _)
    · exact fun n hn => k.reads.ast.isImport (h.imports n hn)
    · exact fun n hn => k.reads.ast.isClass (h.classes n hn)
    · intro i hi
      rcases List.mem_cons.mp hi with rfl | hi
      · exact k.all i (by simp)
      · exact k.reads.ast.isStmt (h.stmts i hi)

end ReadsParts

theorem part_ensures {s₀ : ParseState} {r : Rules} {read : PartsRead} (hr : r.Records)
    (hspells : r.Spells s.draft.ahead) (h : ReadsParts s₀ read s) :
    (part r read).Ensures s fun read s' => ReadsParts s₀ read s' := by
  unfold part
  simp only [ensures_bind, ensures_kind]
  split
  · simp only [ensures_bind, ensures_pure]
    refine (importDecl_ensures h.fit _).mono ?_
    rintro n s₁ ⟨hs₁, himport⟩
    refine (accept_reads hs₁.fit (by decide)).mono fun _ s₂ hs₂ => ?_
    exact h.importDecl (by simpa using hs₁.trans hs₂) (hs₂.ast.isImport himport)
  · simp only [ensures_bind, ensures_pure]
    exact (hr.classDecl s h.fit hspells).mono fun n s₁ hs₁ => h.classDecl hs₁.1 hs₁.2
  · simp only [ensures_bind, ensures_pure]
    exact (hr.statement s h.fit).mono fun stmt s₁ hs₁ => h.stmt hs₁

theorem parts_ensures {r : Rules} (hr : r.Records) (hspells : r.Spells s.draft.ahead)
    (h : s.Fit) :
    (parts r).Ensures s fun read s' => ReadsParts s read s' := by
  unfold parts
  refine repeatFrom_ensures (ReadsParts s)
    ⟨⟨[], .refl h, .refl _, .slnil⟩, by simp, by simp, by simp⟩
    fun read s₁ hread => ?_
  simp only [ensures_bind, ensures_atEnd]
  split
  · exact ensures_pure.mpr hread
  · simp only [ensures_bind, ensures_current, ensures_pure]
    refine (part_ensures hr (hread.spells hspells) hread).mono fun read s₂ hs₂ => ?_
    refine (skipIfStuck_reads hs₂.fit _).mono fun _ s₃ hs₃ => ?_
    exact hs₂.skip hs₃

end Script

/-- The class that a whole script stands for has a body and no members but classes. -/
structure ClassDecl.IsScript (c : ClassDecl) (body : NodeId) : Prop where
  name : c.name = ""
  base : c.base = none
  fields : c.fields = []
  methods : c.methods = []
  body : c.body = some body
  isScript : c.isScript = true

/-- What a script consists of: its marker and the events in it, the nodes of its parts, the point
    behind them, its class, and the block of its statements. -/
structure ScriptParts where
  marker : MarkerId
  inside : List Event
  members : List NodeId
  stop : ParsePoint
  decl : ClassDecl
  body : Nat
  stmts : List NodeId

/-- The parts of a script stand in its marker, and its class was allocated right after the block of
    its statements. -/
structure ScriptRecorded (ast : Ast) (mk : MarkerId → Marker) (events : List Event) (root : Nat)
    (parts : ScriptParts) : Prop where
  events_eq : events = .start parts.marker :: parts.inside ++ [.stop parts.marker]
  nodup : (events.filterMap Event.started?).Nodup
  announces : Announces mk [] events []
  recorded : Recorded ast mk ⟨0, 0⟩ parts.inside parts.members parts.stop
  perm : parts.members.Perm (parts.decl.imports ++ parts.decl.inner ++ parts.stmts)
  sublist : parts.stmts.Sublist parts.members
  imports : ∀ n ∈ parts.decl.imports, ast.IsImport n
  classes : ∀ n ∈ parts.decl.inner, ast.IsClass n
  isStmt : ∀ n ∈ parts.stmts, ast.IsStmt n
  data_body : ast.data? parts.body = some (.block parts.stmts)
  le_body : parts.stop.ids ≤ parts.body
  body_lt : parts.body < root
  data_root : ast.data? root = some (.classDecl parts.decl)
  means : (mk parts.marker).Means root (.classDecl parts.decl) parts.inside
  nameless : (mk parts.marker).nameMarker = none
  script : parts.decl.IsScript parts.body
  severed : Severed 0 0 ast mk [root]

/-- A node that is no part of anything yet changes nothing that was recorded. -/
theorem Inside.allocated {m : MarkerId} {s₀ s : ParseState} {p : List Event} {ns : List NodeId}
    (h : Inside m s₀ s p ns) {data : NodeData} (hparts : ∀ k ∈ data.parts, k ∈ ns)
    (hplain : ∀ params body, data ≠ .closure params body true) (span : Span) :
    Inside m s₀ (s.allocated data span) p ns where
  toAdvances := h.toAdvances.allocated
  events := h.events
  ahead := h.ahead
  fresh := h.fresh
  nodup := h.nodup
  announces := h.announces
  opened := h.opened
  new := h.new
  not_mem := h.not_mem
  state := h.state
  node := h.node
  kind := h.kind
  resume := h.resume
  recorded := by
    have hsize := s.size_allocated data span
    have hle : s.point.Precedes (s.allocated data span).point := by
      refine ⟨?_, Nat.le_refl _⟩
      dsimp only [point]
      omega
    exact (h.recorded.mono (s.extends_allocated data span) fun _ _ => rfl).le hle
  severed := h.severed_allocated hparts (fun _ hk => .inl hk) hplain

/-- The class of a script consists of what was read and the block of its statements. -/
theorem Script.severed_script {s₀ s₃ s₅ : ParseState} {m : MarkerId} {p q : List Event}
    {ns stmts : List NodeId} {c : ClassDecl} {stmtsSpan : Span} (h₃ : Inside m s₀ s₃ p ns)
    (h₅ : Reads (s₃.allocated (.block stmts) stmtsSpan) s₅ q [])
    (hperm : ns.Perm (c.imports ++ c.inner ++ stmts)) (hstmts : stmts.Sublist ns)
    (hscript : c.IsScript s₃.ast.size) (span : Span) :
    Severed s₀.ast.size s₀.draft.markers.size (s₅.allocated (.classDecl c) span).ast
      s₅.draft.marker [s₅.ast.size] := by
  have hids := h₃.recorded.precedes.ids
  have hlt : ∀ n ∈ ns ++ [s₃.ast.size],
      s₀.ast.size ≤ n ∧ n < (s₃.allocated (.block stmts) stmtsSpan).ast.size := by
    intro n hn
    rw [size_allocated]
    rcases List.mem_append.mp hn with hn | hn
    · obtain ⟨hle, hlt⟩ := h₃.recorded.laid.mem_lt hn
      exact ⟨hle, Nat.lt_succ_of_lt hlt⟩
    · obtain rfl := List.mem_singleton.mp hn
      exact ⟨hids, Nat.lt_succ_self _⟩
  have hbody : Severed s₀.ast.size s₀.draft.markers.size
      (s₃.allocated (.block stmts) stmtsSpan).ast s₃.draft.marker (ns ++ [s₃.ast.size]) :=
    h₃.severed_allocated (fun k hk => hstmts.subset hk)
      (fun k hk => (List.mem_append.mp hk).imp_right List.mem_singleton.mp) (by simp)
  have hbehind := hbody.append h₅.severed h₅.kept h₅.marker
    (Nat.le_trans hids (s₃.keeps_allocated _ _).size_le) hlt (by simp)
  rw [List.append_nil] at hbehind
  refine hbehind.alloc (fun n hn => ?_) (fun k hk => ?_)
    (fun k hk => .inr (List.mem_singleton.mp hk)) (by simp)
  · obtain ⟨hle, hn⟩ := hlt n hn
    exact ⟨hle, Nat.lt_of_lt_of_le hn h₅.kept.size_le⟩
  · simp only [NodeData.parts, hscript.fields, hscript.methods, hscript.body, List.nil_append,
      Option.toList_some, List.append_assoc, List.mem_append] at hk
    rw [List.mem_append, hperm.mem_iff, List.mem_append, List.mem_append]
    tauto

/-- The class of a script ends the marker around all of its parts. -/
theorem Script.close_ensures {s₀ s₃ s₅ : ParseState} {m : MarkerId} {p : List Event}
    {ts : List Token} {ns stmts : List NodeId} {c : ClassDecl} {span stmtsSpan : Span}
    (hhistory : s₀.draft.history = []) (hmarkers : s₀.draft.markers.size = 0)
    (hpoint : s₀.point = ⟨0, 0⟩) (h₃ : Inside m s₀ s₃ p ns)
    (hpassed : Passed (fun kind => kind == .className) s₃.draft.marker p)
    (h₅ : Reads (s₃.allocated (.block stmts) stmtsSpan) s₅ (ts.map .token) [])
    (hast : s₅.ast = (s₃.allocated (.block stmts) stmtsSpan).ast)
    (hperm : ns.Perm (c.imports ++ c.inner ++ stmts)) (hstmts : stmts.Sublist ns)
    (himports : ∀ n ∈ c.imports, s₃.ast.IsImport n)
    (hclasses : ∀ n ∈ c.inner, s₃.ast.IsClass n) (hisStmt : ∀ n ∈ stmts, s₃.ast.IsStmt n)
    (hscript : c.IsScript s₃.ast.size) :
    (close m s₅.ast.size).Ensures (s₅.allocated (.classDecl c) span) fun _ s' =>
      s'.draft.ahead = [] →
        ∃ parts, ScriptRecorded s'.ast s'.draft.marker s'.draft.events s₅.ast.size parts := by
  have hparts : ∀ k ∈ (NodeData.block stmts).parts, k ∈ ns := fun _ hk => hstmts.subset hk
  have hin := (h₃.allocated hparts (by simp) stmtsSpan).trans h₅
  have hroot := s₅.data?_allocated (.classDecl c) span
  have hextends : s₃.ast.Extends (s₅.allocated (.classDecl c) span).ast := by
    refine (s₃.extends_allocated (.block stmts) stmtsSpan).trans ?_
    rw [← hast]
    exact s₅.extends_allocated _ _
  have hbody : (s₅.allocated (.classDecl c) span).ast.data? s₃.ast.size = some (.block stmts) := by
    refine (s₅.extends_allocated (.classDecl c) span).same ?_ (by simp)
    rw [hast]
    exact s₃.data?_allocated _ _
  refine ensures_close.mpr fun d hd hahead => ?_
  unfold Draft.closeWith at hd
  rw [hroot, Option.bind_some, NodeKind.of?] at hd
  have hc := Draft.closeAs_closes (d := s₅.draft) hin.new.2 hin.events hin.not_mem hd
  have hmarker : ∀ j, .start j ∈ p → d.marker j = s₃.draft.marker j := fun j hj =>
    (hc.marker j (h₃.ne hj)).trans (h₅.marker j (h₃.fresh j hj).2)
  have hevents : d.events = .start m :: (p ++ ts.map .token) ++ [.stop m] := by
    unfold Draft.events
    rw [hc.history, hin.events, hhistory]
    simp
  have hname : (d.marker m).nameMarker = none := by
    obtain ⟨markers, hmarkers, hname⟩ := hc.name
    rw [hname]
    refine ((hpassed.append (.tokens ts)) markers m [.stop m] [] (fun j hj => ?_)
      (mt hin.recorded.balanced.start_mem hin.not_mem)).trans findName_stop
    have hjp : .start j ∈ p := by simpa using hj
    exact (hmarkers j (h₃.ne hjp)).trans (h₅.marker j (h₃.fresh j hjp).2)
  have htext : s₃.lastEnd ≤ s₅.lastEnd := h₅.recorded.precedes.text
  have htokens : Recorded (s₅.allocated (.classDecl c) span).ast d.marker s₃.point
      (ts.map .token) [] ⟨s₃.ast.size, s₅.lastEnd⟩ := .tokens ⟨Nat.le_refl _, htext⟩
  have hrecorded := (h₃.recorded.mono hextends hmarker).append htokens
  rw [List.append_nil, hpoint] at hrecorded
  refine ⟨⟨m, p ++ ts.map .token, ns, _, c, _, stmts⟩, ⟨hevents, ?_, ?_, hrecorded, hperm, hstmts,
    fun n hn => hextends.isImport (himports n hn), fun n hn => hextends.isClass (hclasses n hn),
    fun n hn => hextends.isStmt (hisStmt n hn), hbody,
    Nat.le_refl _, ?_, hroot, hc.means rfl, hname, hscript, ?_⟩⟩
  · dsimp only
    rw [hevents]
    exact Event.nodup_wrap hin.not_mem hin.nodup
  · dsimp only at hahead ⊢
    have hinside : Announces d.marker [.start m] (p ++ ts.map .token) [] := by
      have hannounces := hin.announces
      rw [hhistory, ← hc.ahead, hahead] at hannounces
      exact hannounces.congr fun j hj => hc.marker j (hin.ne hj)
    rw [hevents]
    refine hinside.wrap fun hvar => ?_
    rw [hc.kind_eq] at hvar
    cases hvar
  · rw [hast, size_allocated]
    exact Nat.lt_succ_self _
  · have hids : s₀.ast.size = 0 := congrArg ParsePoint.ids hpoint
    have hsevered := severed_script h₃ h₅ hperm hstmts hscript span
    rw [hids, hmarkers] at hsevered
    refine hsevered.congr fun j _ => ?_
    by_cases hj : j = m
    · subst hj
      refine .inr fun n hn => ⟨by rw [hc.state]; decide, Nat.zero_le n, ?_⟩
      obtain rfl := Option.some.inj (hc.node.symm.trans hn)
      exact Nat.lt_of_lt_of_eq (Nat.lt_succ_self _) (s₅.size_allocated _ _).symm
    · exact .inl (hc.marker j hj)

theorem Script.script_ensures (source : String) {s : ParseState} (h : s.Fit)
    (hhistory : s.draft.history = []) (hmarkers : s.draft.markers.size = 0)
    (hpoint : s.point = ⟨0, 0⟩)
    (hspells : ∀ t ∈ s.draft.ahead, t.kind = .ident → t.textIn source ≠ "") :
    (script source).Ensures s fun root s' => s'.draft.ahead = [] → ∃ parts,
      ScriptRecorded s'.ast s'.draft.marker s'.draft.events root parts := by
  unfold script
  simp only [ensures_bind, ensures_here]
  refine (openMarker_ensures h).mono fun m s₁ hs₁ => ?_
  have hw := hs₁.1
  have hrest (declared : Option String) (start : Nat) {s₂ : ParseState} {p : List Event}
      (hs₂ : Reads s₁ s₂ p [])
      (hp : Passed (fun kind => kind == .className) s₂.draft.marker p) :
      (do
        let r := Rules.upTo source declared ((← get).draft.ahead.length + 1)
        let read ← parts r
        let body ← allocFrom start (.block read.stmts.reverse)
        advance
        let stop := (← current).span.stop
        let node ← alloc (.classDecl {
          package := declared
          inner := read.classes.reverse
          imports := read.imports.reverse
          body := some body
          isScript := true }) ⟨0, stop⟩
        close m node
        return node : Production NodeId).Ensures s₂ fun root s' => s'.draft.ahead = [] →
          ∃ parts, ScriptRecorded s'.ast s'.draft.marker s'.draft.events root parts := by
    have hspells (depth : Nat) : (Rules.upTo source declared depth).Spells s₂.draft.ahead := by
      intro t ht hident
      have hmem : t ∈ s.draft.ahead := by
        rw [(hw.trans hs₂).ahead]
        exact List.mem_append_right _ ht
      unfold Rules.text
      rw [Rules.upTo_source]
      exact hspells t hmem hident
    simp only [ensures_bind, ensures_get]
    refine (parts_ensures (Rules.upTo_records source declared _) (hspells _) hs₂.fit).mono
      fun read s₃ hread => ?_
    obtain ⟨ns, ⟨q, hns, hnq⟩, hperm, hsub⟩ := hread.reads
    have hq : Inside m s s₃ (p ++ q) ns := (hw.trans hs₂).trans hns
    have hpassed : Passed (fun kind => kind == .className) s₃.draft.marker (p ++ q) :=
      (hp.congr fun j hj => hns.marker j (hs₂.fresh j hj).2).append
        (hnq _ fun _ => Rules.isName_of_className)
    rw [ensures_allocFrom]
    have hfit : (s₃.allocated (.block read.stmts.reverse) ⟨start, max s₃.lastEnd start⟩).Fit :=
      hq.toAdvances.allocated.fit
    obtain ⟨ts, hadvance, -⟩ := reads_advance hfit
    refine ensures_modify.mpr ?_
    simp only [ensures_current, ensures_alloc, ensures_pure]
    refine Ensures.mono (close_ensures hhistory hmarkers hpoint hq hpassed hadvance rfl
      ?_ hsub ?_ ?_ ?_ ⟨rfl, rfl, rfl, rfl, rfl, rfl⟩) fun _ s' hs' => hs'
    · refine hperm.trans ?_
      exact ((List.reverse_perm _).symm.append (List.reverse_perm _).symm).append
        (List.reverse_perm _).symm
    · exact fun n hn => hread.imports n (List.mem_reverse.mp hn)
    · exact fun n hn => hread.classes n (List.mem_reverse.mp hn)
    · exact fun n hn => hread.stmts n (List.mem_reverse.mp hn)
  rw [ensures_at?]
  split
  · simp only [ensures_bind]
    refine (package_ensures hw.fit _).mono fun declared s₂ hs₂ => ?_
    obtain ⟨p, hp, hpassed⟩ := hs₂
    refine (accept_reads hp.fit (by decide)).mono fun _ s₃ hs₃ => ?_
    obtain ⟨q, hq, hnq⟩ := hs₃
    have hpassed := (hpassed.congr fun j hj => hq.marker j (hp.fresh j hj).2).append
      (hnq _ fun _ => Rules.isName_of_className)
    simpa only [ensures_bind] using hrest declared s₁.draft.current.offset (hp.trans hq) hpassed
  · simpa only [ensures_bind] using hrest none s₁.draft.current.offset (.refl hw.fit) (.tokens [])

theorem fit_ofTokens (text : String) :
    ({ draft := Draft.ofTokens (scan text) none } : ParseState).Fit := by
  refine ⟨⟨0, Nat.le_refl _, ?_⟩, fun t => scan_solid text, by simp [Draft.ofTokens]⟩
  obtain ⟨body, heq, -, -⟩ := scan_eq text
  have hstop : (Draft.ofTokens (scan text) none).textEnd = text.utf8ByteSize := by
    unfold Draft.ofTokens
    rw [heq]
    simp [Span.point]
  dsimp only
  rw [hstop]
  exact scan_tiles text

/-- The parse of a script records its parts. -/
theorem ScriptRecorded.of_parse {text : String} {p : Parse} (h : parseScript text = .ok p) :
    ∃ parts, ScriptRecorded p.ast p.transcript.marker p.transcript.events p.root parts := by
  obtain ⟨root, s, hrun, hahead, rfl⟩ := parseScript_run h
  exact Script.script_ensures text (fit_ofTokens text) rfl rfl rfl
    (fun t ht hident => textIn_ne_empty text ht (by simp [hident])) root s hrun hahead

end ScriptAnalysis

import ScriptAnalysis.Proofs.Grammar.Concerns
import ScriptAnalysis.Proofs.Grammar.ScriptNodes
import ScriptAnalysis.Proofs.Grammar.StatementRuns

/-!
# Classes and scripts step by step

A class starts with its keyword and has the name of a token, and the classes of a script start at
different places (`Apart`), because each of them consumes its keyword before it goes on.  The
classes directly in a class stand in a row behind its keyword (`Ast.Row`).  A script is one run in a
marker of its own.
-/

namespace ScriptAnalysis

open ParseState Production

variable {S : Token → Prop} {s₀ s s' s₁ s₂ s₃ : ParseState} {m : MarkerId}

/-! ### Classes that stand apart -/

/-- A class has the name of a token, if it has one, and starts with its keyword, unless it is that
    of a script. -/
def PlacedInScript (source : String) (S : Token → Prop) (data : NodeData) (span : Span) : Prop :=
  match data with
  | .classDecl c => c.isScript = true ∨
      (∃ t, S t ∧ t.kind = .classKw ∧ t.offset = span.start) ∧
        (c.name ≠ "" → ∃ t, S t ∧ t.kind = .ident ∧ c.name = t.textIn source)
  | data => Placed source S data span

theorem Placed.in_script {source : String} {data : NodeData} {span : Span}
    (h : Placed source S data span) : PlacedInScript source S data span := by
  cases data with
  | classDecl c => exact h.elim
  | _ => exact h

/-- Expressions and statements allocate no classes. -/
theorem not_class_of_run {source : String} {phase : Phase}
    (h : Run source (Placed source S) phase s s')
    (n : NodeId) (c : ClassDecl) (hdata : s'.ast.data? n = some (.classDecl c)) :
    ¬ s.ast.size ≤ n := by
  intro hn
  obtain ⟨old, rfl | ⟨_, _, _, _, -, hclosure⟩, hplaced⟩ := h.allocates.new n _ hdata hn
  · exact hplaced
  · cases hclosure

/-- The classes that were allocated since start at different places behind what was consumed
    before. -/
structure Apart (s s' : ParseState) : Prop where
  start : ∀ n c, s'.ast.data? n = some (.classDecl c) → s.ast.size ≤ n →
    s.draft.current.offset ≤ (s'.ast.span n).start ∧ (s'.ast.span n).start < s'.lastEnd
  apart : ∀ n n' c c', s'.ast.data? n = some (.classDecl c) →
    s'.ast.data? n' = some (.classDecl c') → s.ast.size ≤ n → s.ast.size ≤ n' →
    (s'.ast.span n).start = (s'.ast.span n').start → n = n'

namespace Apart

/-- Where no classes are allocated there is nothing to tell apart. -/
theorem of_run {phase : Phase} (h : Run source (Placed source S) phase s s') : Apart s s' :=
  ⟨fun n c hdata hn => absurd hn (not_class_of_run h n c hdata),
    fun n _ c _ hdata _ hn _ _ => absurd hn (not_class_of_run h n c hdata)⟩

/-- A class that is known later was already a class when its node was there. -/
theorem class_of_extends {ast ast' : Ast} {n : NodeId} {c : ClassDecl} (h : ast.Extends ast')
    (hdata : ast'.data? n = some (.classDecl c)) (hn : n < ast.size) :
    ast.data? n = some (.classDecl c) ∧ ast'.span n = ast.span n := by
  obtain ⟨data, hold⟩ : ∃ data, ast.data? n = some data :=
    ⟨ast.nodes[n].data, by simp [Ast.data?, Ast.node?, Array.getElem?_eq_getElem hn]⟩
  obtain ⟨hspan, data', hdata', halike⟩ := h n data hold
  obtain rfl := Option.some.inj (hdata.symm.trans hdata')
  rcases halike with rfl | ⟨_, _, _, _, -, hclosure⟩
  · exact ⟨hold, hspan⟩
  · cases hclosure

/-- A class in an arena with one more node was there before, or it is that node. -/
theorem class_of_allocated {n : NodeId} {c : ClassDecl} {data : NodeData} {span : Span}
    (h : (s.allocated data span).ast.data? n = some (.classDecl c)) :
    (n < s.ast.size ∧ s.ast.data? n = some (.classDecl c) ∧
      (s.allocated data span).ast.span n = s.ast.span n) ∨ n = s.ast.size ∧
        data = .classDecl c := by
  by_cases hlt : n < s.ast.size
  · exact .inl ⟨hlt, class_of_extends (extends_allocated _ _ _) h hlt⟩
  · have hn := Ast.lt_size_of_data? h
    rw [size_allocated] at hn
    obtain rfl : n = s.ast.size := Nat.le_antisymm (Nat.le_of_lt_succ hn) (Nat.le_of_not_lt hlt)
    exact .inr ⟨rfl, Option.some.inj ((s.data?_allocated data span).symm.trans h)⟩

/-- A class that starts in front of all classes in it stands apart from them. -/
theorem around {c : ClassDecl} {stop : Nat} (h : Apart s₁ s₂)
    (hast : s'.ast = (s₂.allocated (.classDecl c) ⟨s.draft.current.offset, stop⟩).ast)
    (hend : s'.lastEnd = s₂.lastEnd) (hsize : s₁.ast.size = s.ast.size)
    (hlow : s.draft.current.offset < s₁.draft.current.offset)
    (hlast : s.draft.current.offset < s₂.lastEnd) : Apart s s' := by
  have hcases : ∀ n c', s'.ast.data? n = some (.classDecl c') → s.ast.size ≤ n →
      (n = s₂.ast.size ∧ (s'.ast.span n).start = s.draft.current.offset) ∨
      (s₂.ast.data? n = some (.classDecl c') ∧ s₁.ast.size ≤ n ∧
        s'.ast.span n = s₂.ast.span n) := by
    intro n c' hdata hn
    rw [hast] at hdata ⊢
    rcases class_of_allocated hdata with ⟨-, hold⟩ | ⟨rfl, -⟩
    · exact .inr ⟨hold.1, Nat.le_trans (Nat.le_of_eq hsize) hn, hold.2⟩
    · exact .inl ⟨rfl, by rw [span_allocated]⟩
  refine ⟨fun n c' hdata hn => ?_, fun n n' c₁ c₂ hdata hdata' hn hn' heq => ?_⟩
  · rcases hcases n c' hdata hn with ⟨-, hspan⟩ | ⟨hold, hn, hspan⟩
    · omega
    · have hinner := h.start n c' hold hn
      rw [hspan]
      omega
  · rcases hcases n c₁ hdata hn with ⟨rfl, hspan⟩ | ⟨hold, hn, hspan⟩ <;>
      rcases hcases n' c₂ hdata' hn' with ⟨rfl, hspan'⟩ | ⟨hold', hn', hspan'⟩
    · rfl
    · have hinner := h.start n' c₂ hold' hn'
      rw [← hspan'] at hinner
      omega
    · have hinner := h.start n c₁ hold hn
      rw [← hspan] at hinner
      omega
    · exact h.apart n n' c₁ c₂ hold hold' hn hn' (by rw [← hspan, ← hspan', heq])

theorem trans (h : Apart s₁ s₂) (k : Apart s₂ s₃) (hast : s₂.ast.Extends s₃.ast)
    (hh : Forth s₁ s₂) (hk : Forth s₂ s₃) : Apart s₁ s₃ := by
  have hlast := hh.tiled.lastEnd_le
  have hstart : ∀ n c, s₃.ast.data? n = some (.classDecl c) → s₁.ast.size ≤ n →
      (n < s₂.ast.size ∧ s₁.draft.current.offset ≤ (s₃.ast.span n).start ∧
        (s₃.ast.span n).start < s₂.lastEnd) ∨
      (s₂.ast.size ≤ n ∧ s₂.draft.current.offset ≤ (s₃.ast.span n).start ∧
        (s₃.ast.span n).start < s₃.lastEnd) := by
    intro n c hdata hn
    by_cases hlt : n < s₂.ast.size
    · obtain ⟨hold, hspan⟩ := class_of_extends hast hdata hlt
      rw [hspan]
      exact .inl ⟨hlt, h.start n c hold hn⟩
    · exact .inr ⟨Nat.le_of_not_lt hlt, k.start n c hdata (Nat.le_of_not_lt hlt)⟩
  have hhere := hh.here
  have hlast' := hk.lastEnd
  refine ⟨fun n c hdata hn => ?_, fun n n' c c' hdata hdata' hn hn' heq => ?_⟩
  · rcases hstart n c hdata hn with ⟨-, h₁, h₂⟩ | ⟨-, h₁, h₂⟩ <;> omega
  · rcases hstart n c hdata hn with ⟨hlt, h₁, h₂⟩ | ⟨hle, h₁, h₂⟩ <;>
      rcases hstart n' c' hdata' hn' with ⟨hlt', h₁', h₂'⟩ | ⟨hle', h₁', h₂'⟩
    · obtain ⟨hold, hspan⟩ := class_of_extends hast hdata hlt
      obtain ⟨hold', hspan'⟩ := class_of_extends hast hdata' hlt'
      exact h.apart n n' c c' hold hold' hn hn' (by rw [← hspan, ← hspan', heq])
    · omega
    · omega
    · exact k.apart n n' c c' hdata hdata' hle hle' heq

end Apart

/-! ### Classes in a row -/

/-- Classes that stand one behind the other between two places of a text. -/
inductive Ast.Row (ast : Ast) : Nat → List NodeId → Nat → Prop
  | nil {a b : Nat} : a ≤ b → Row ast a [] b
  | cons {a b : Nat} {i : NodeId} {is : List NodeId} {c : ClassDecl} :
      ast.data? i = some (.classDecl c) → a ≤ (ast.span i).start →
      (ast.span i).start < (ast.span i).stop → Row ast (ast.span i).stop is b →
      Row ast a (i :: is) b

/-- The classes directly in a class stand in a row, behind its keyword unless it is that of a
    script. -/
def Ast.HoldsRow (ast : Ast) (n : NodeId) (c : ClassDecl) : Prop :=
  ∃ a b, ast.Row a c.inner b ∧
    (c.isScript = false → (ast.span n).start < a ∧ b ≤ (ast.span n).stop)

namespace Ast.Row

variable {ast ast' : Ast} {a a' b b' : Nat} {is js : List NodeId}

theorem le (h : ast.Row a is b) : a ≤ b := by
  induction h with
  | nil hle => exact hle
  | cons _ hstart hlt _ ih => omega

theorem ge (h : ast.Row a is b) (hle : a' ≤ a) : ast.Row a' is b := by
  cases h with
  | nil hab => exact .nil (Nat.le_trans hle hab)
  | cons hdata hstart hlt hrest => exact .cons hdata (Nat.le_trans hle hstart) hlt hrest

theorem append (h : ast.Row a is b) (k : ast.Row b js b') : ast.Row a (is ++ js) b' := by
  induction h with
  | nil hle => exact k.ge hle
  | cons hdata hstart hlt _ ih => exact .cons hdata hstart hlt (ih k)

theorem later (h : ast.Row a is b) (hast : ast.Extends ast') : ast'.Row a is b := by
  induction h with
  | nil hle => exact .nil hle
  | cons hdata hstart hlt _ ih =>
    have hspan := hast.span hdata
    exact .cons (hast.same hdata (by simp)) (hspan ▸ hstart) (hspan ▸ hlt) (hspan ▸ ih)

theorem sublist (h : ast.Row a is b) (hjs : js.Sublist is) : ast.Row a js b := by
  induction hjs generalizing a with
  | slnil => exact h
  | cons i _ ih =>
    cases h with
    | cons _ hstart hlt hrest => exact (ih hrest).ge (Nat.le_trans hstart (Nat.le_of_lt hlt))
  | cons_cons i _ ih =>
    cases h with
    | cons hdata hstart hlt hrest => exact .cons hdata hstart hlt (ih hrest)

theorem of_mem {i : NodeId} (h : ast.Row a is b) (hi : i ∈ is) :
    a ≤ (ast.span i).start ∧ (ast.span i).start < (ast.span i).stop ∧ (ast.span i).stop ≤ b := by
  cases h.sublist (List.singleton_sublist.mpr hi) with
  | cons _ hstart hlt hrest => exact ⟨hstart, hlt, hrest.le⟩

/-- Each class ends before the next ones start. -/
theorem pairwise (h : ast.Row a is b) :
    is.Pairwise fun i j => (ast.span i).stop ≤ (ast.span j).start := by
  induction h with
  | nil => exact .nil
  | cons _ _ _ hrest ih => exact .cons (fun j hj => (hrest.of_mem hj).1) ih

end Ast.Row

theorem Ast.HoldsRow.later {ast ast' : Ast} {n : NodeId} {c : ClassDecl} (h : ast.HoldsRow n c)
    (hast : ast.Extends ast') (hspan : ast'.span n = ast.span n) : ast'.HoldsRow n c := by
  obtain ⟨a, b, hrow, hin⟩ := h
  exact ⟨a, b, hrow.later hast, hspan ▸ hin⟩

/-- Constructs were read, the classes `is` among them, and all classes in these stand apart. -/
structure ClassRun (source : String) (S : Token → Prop) (s : ParseState) (is : List NodeId)
    (s' : ParseState) : Prop where
  run : Run source (PlacedInScript source S) (.steps false) s s'
  apart : Apart s s'
  row : s'.ast.Row s.lastEnd is s'.lastEnd
  rows : ∀ n c, s'.ast.data? n = some (.classDecl c) → s.ast.size ≤ n → s'.ast.HoldsRow n c

namespace ClassRun

variable {source : String} {is js : List NodeId}

theorem of_run (hs : s.Sound S) (h : Run source (Placed source S) (.steps false) s s') :
    ClassRun source S s [] s' :=
  ⟨h.mono fun _ _ => Placed.in_script, .of_run h, .nil (h.forth hs).lastEnd,
    fun n c hdata hn => absurd hn (not_class_of_run h n c hdata)⟩

theorem trans (hs : s₁.Sound S) (h : ClassRun source S s₁ is s₂)
    (k : ClassRun source S s₂ js s₃) : ClassRun source S s₁ (is ++ js) s₃ := by
  have hforth := h.run.forth hs
  have hast := k.run.allocates.extends_ast
  refine ⟨h.run.append k.run, h.apart.trans k.apart hast hforth
    (k.run.forth (h.run.sound hs)), (h.row.later hast).append k.row, ?_⟩
  intro n c hdata hn
  by_cases hlt : n < s₂.ast.size
  · obtain ⟨hold, hspan⟩ := Apart.class_of_extends hast hdata hlt
    exact (h.rows n c hold hn).later hast hspan
  · exact k.rows n c hdata (Nat.le_of_not_lt hlt)

/-- Nothing but classes was read, or no classes. -/
theorem trans_run (hs : s₁.Sound S) (h : ClassRun source S s₁ is s₂)
    (k : Run source (Placed source S) (.steps false) s₂ s₃) : ClassRun source S s₁ is s₃ := by
  have hall := h.trans hs (.of_run (h.run.sound hs) k)
  rwa [List.append_nil] at hall

end ClassRun

/-- The production of classes that the others refer to. -/
def Rules.RunsClasses (S : Token → Prop) (r : Rules) : Prop :=
  ∀ s : ParseState, s.Sound S → s.draft.current.kind = .classKw →
    r.classDecl.Ensures s fun n s' => ClassRun r.source S s [n] s'

/-- Tokens are not empty, apart from the end of the text. -/
def Solid (S : Token → Prop) : Prop := ∀ t, S t → t.kind ≠ .eof → t.span.start < t.span.stop

namespace Rules

variable {r : Rules} {source : String}

theorem classMember_runs (hr : r.Runs S) (hc : r.RunsClasses S) (hs : s.Sound S)
    (read : MembersRead) :
    (r.classMember read).Ensures s fun read' s' =>
      ∃ is, read'.inner.reverse = read.inner.reverse ++ is ∧ ClassRun r.source S s is s' := by
  have hnone {s' : ParseState} (h : Run r.source (Placed r.source S) (.steps false) s s') :
      ∃ is, read.inner.reverse = read.inner.reverse ++ is ∧ ClassRun r.source S s is s' :=
    ⟨[], (List.append_nil _).symm, .of_run hs h⟩
  unfold classMember
  simp only [ensures_bind, ensures_kind]
  split
  · next hk =>
    simp only [ensures_bind, ensures_pure]
    exact (hc s hs hk).mono fun n _ h => ⟨[n], List.reverse_cons, h⟩
  · simp only [ensures_bind, ensures_advance, ensures_pure]
    exact hnone (.advance s)
  · simp only [ensures_bind, ensures_declarationShape]
    split
    · next hshape =>
      simp only [ensures_bind, ensures_pure]
      exact (funDecl_runs hr hs _ (startsType_of_declarationShape? hshape)).mono
        fun _ _ h => hnone h
    · next hshape =>
      simp only [ensures_bind, ensures_pure]
      refine (varDecl_runs hr hs _ _ false
        (.inr ⟨startsType_of_declarationShape? hshape, by simp⟩)).mono fun _ s₁ hs₁ => ?_
      exact (accept_runs r.source (Placed r.source S) false (by decide)).mono fun _ _ h =>
        hnone (hs₁.append h.1)
    · simp only [ensures_bind, ensures_pure]
      exact (skipUnexpected_runs (Placed r.source S) false _ _).mono fun _ _ h => hnone h

theorem classMembers_runs (hr : r.Runs S) (hc : r.RunsClasses S) (hs : s.Sound S) :
    r.classMembers.Ensures s fun read s' => ClassRun r.source S s read.inner.reverse s' := by
  unfold classMembers
  refine repeatFrom_ensures (fun read s' => ClassRun r.source S s read.inner.reverse s')
    (.of_run hs (.refl s)) ?_
  intro read s₁ hread
  simp only [ensures_bind, ensures_at?, ensures_atEnd]
  split
  · exact ensures_pure.mpr hread
  · simp only [ensures_bind, ensures_current, ensures_pure]
    refine (classMember_runs hr hc (hread.run.sound hs) read).mono fun read s₂ hs₂ => ?_
    obtain ⟨is, heq, hs₂⟩ := hs₂
    refine (skipIfStuck_runs r.source (Placed r.source S) false _).mono fun _ s₃ hs₃ => ?_
    change ClassRun r.source S s read.inner.reverse s₃
    rw [heq]
    exact (hread.trans hs hs₂).trans_run hs hs₃

/-- A class starts in front of all classes in it. -/
theorem finish_class_runs {c : ClassDecl} (hS : Solid S) (hs : s.Sound S)
    (hk : s.draft.current.kind = .classKw)
    (hin : Run source (PlacedInScript source S) (.inside m) s s₁) (hsize : s₁.ast.size = s.ast.size)
    (hcur : s₁.draft.current = s.draft.current) (hrun : ClassRun source S s₁.advanced c.inner s₂)
    (hname : c.name ≠ "" → ∃ t, S t ∧ t.kind = .ident ∧ c.name = t.textIn source) :
    (finish m s.draft.current.offset (.classDecl c)).Ensures s₂
      fun n s' => ClassRun source S s [n] s' := by
  have hk₁ : s₁.draft.current.kind ≠ .eof := by
    rw [hcur, hk]
    decide
  have hin₂ := hin.extend (.advance s₁)
  have hmoved := hrun.run.keeps_moved (hin₂.sound hs) (hin.moved hs (moved_advanced hk₁))
  have hplaced (stop : Nat) : PlacedInScript source S (.classDecl c)
      ⟨s.draft.current.offset, stop⟩ := .inr ⟨⟨_, hs.current, hk, rfl⟩, hname⟩
  refine ((finish_runs false (hin₂.extend hrun.run) rfl hplaced (.inr hmoved)).and
    (finish_state m _ _)).mono fun n s' hs' => ?_
  obtain ⟨⟨hwhole, -⟩, rfl, hast, hlast⟩ := hs'
  have hforth₁ := hin₂.forth hs
  have hforth := hrun.run.forth (hin₂.sound hs)
  have hlow : s.draft.current.offset < s₁.advanced.lastEnd := by
    unfold advanced
    rw [hcur]
    exact hS _ hs.current (by rw [hk]; decide)
  have hle := hforth₁.tiled.lastEnd_le
  have hle' := hforth.lastEnd
  have hself : s'.ast.data? s₂.ast.size = some (.classDecl c) := by
    rw [hast, data?_allocated]
  have hspan : s'.ast.span s₂.ast.size =
      ⟨s.draft.current.offset, max s₂.lastEnd s.draft.current.offset⟩ := by
    rw [hast, span_allocated]
  have hlater : s₂.ast.Extends s'.ast := by
    rw [hast]
    exact extends_allocated _ _ _
  have hapart : Apart s s' := hrun.apart.around hast hlast hsize (Nat.lt_of_lt_of_le hlow hle)
    (Nat.lt_of_lt_of_le hlow hle')
  refine ⟨.ended hwhole, hapart, .cons hself ?_ ?_ (.nil ?_), fun n c' hdata hn => ?_⟩
  · rw [hspan]
    exact hs.tiled.lastEnd_le
  · rw [hspan]
    dsimp only
    omega
  · rw [hspan, hlast]
    dsimp only
    omega
  · rw [hast] at hdata
    rcases Apart.class_of_allocated hdata with ⟨-, hold, hsame⟩ | ⟨rfl, hc⟩
    · exact (hrun.rows n c' hold (Nat.le_trans (Nat.le_of_eq hsize) hn)).later hlater (hast ▸ hsame)
    · cases hc
      refine ⟨_, _, hrun.row.later hlater, fun _ => ?_⟩
      rw [hspan]
      exact ⟨hlow, Nat.le_max_left ..⟩

theorem aClass_runs (hS : Solid S) (hr : r.Runs S) (hc : r.RunsClasses S)
    (hs : s.Sound S) (hk : s.draft.current.kind = .classKw) :
    r.aClass.Ensures s fun n s' => ClassRun r.source S s [n] s' := by
  unfold aClass
  simp only [ensures_bind, ensures_here, ensures_advance]
  refine (openMarker_runs r.source (PlacedInScript r.source S)).mono fun m s₁ hs₁ => ?_
  obtain ⟨hin, hcur, -, hast⟩ := hs₁
  have hin₂ := hin.extend (.advance s₁)
  have hsound := hin₂.sound hs
  refine (name_runs hsound _).mono fun found s₃ hs₃ => ?_
  obtain ⟨hnameRun, -, hfound⟩ := hs₃
  rw [hcur]
  have hfinish (read : MembersRead) {s₅ : ParseState} (base : Option String)
      (hread : ClassRun r.source S s₁.advanced read.inner.reverse s₅) :
      (finish m s.draft.current.offset (.classDecl {
        name := found.1
        package := r.package
        base := base
        fields := read.fields.reverse
        methods := read.methods.reverse
        inner := read.inner.reverse })).Ensures s₅ fun n s' => ClassRun r.source S s [n] s' := by
    refine finish_class_runs hS hs hk hin (congrArg Ast.size hast) hcur hread fun hname => ?_
    obtain ⟨t, htoken, hident, htext, -⟩ := hfound hname
    exact ⟨t, htoken, hident, htext.symm⟩
  have hbase : (do if ← accept .extendsKw then some <$> TypeRef.name <$> r.type else pure none :
      Production (Option String)).Ensures s₃
        fun _ s' => Run r.source (Placed r.source S) (.steps false) s₁.advanced s' := by
    rw [ensures_bind]
    refine (accept_runs r.source (Placed r.source S) false (by decide)).mono
      fun extended s₄ hs₄ => ?_
    have hrun := hnameRun.append hs₄.1
    split
    · simp only [ensures_map]
      exact (type_runs (hrun.sound hsound)).mono fun _ s' hs' => hrun.append hs'.1
    · exact ensures_pure.mpr hrun
  rw [ensures_bind] at hbase
  simp only [ite_bind, ensures_bind]
  refine hbase.mono fun extended s₄ hs₄ => hs₄.mono fun base s₅ hs₅ => ?_
  refine (expect_runs (Placed r.source S) false (by decide) _ _).mono fun found s₆ hs₆ => ?_
  have hbrace := hs₅.append hs₆.1
  split
  · simp only [ensures_bind]
    refine (classMembers_runs hr hc (hbrace.sound hsound)).mono fun read s₇ hread => ?_
    refine (expect_runs (Placed r.source S) false (by decide) _ _).mono fun _ s₈ hs₈ => ?_
    exact hfinish read base (((ClassRun.of_run hsound hbrace).trans hsound hread).trans_run hsound
      hs₈.1)
  · exact hfinish {} base (.of_run hsound hbrace)

/-- By induction on the depth: the productions of a round are runs if those below are. -/
theorem upTo_runs (hS : Solid S) (source : String) (package : Option String) (depth : Nat) :
    (upTo source package depth).Runs S ∧ (upTo source package depth).RunsClasses S := by
  induction depth with
  | zero =>
    exact ⟨⟨fun _ _ => ensures_throw, fun _ _ => ensures_throw, fun _ _ => ensures_throw⟩,
      fun _ _ _ => ensures_throw⟩
  | succ depth ih =>
    obtain ⟨hr, hc⟩ := ih
    have hsource : (upTo source package (depth + 1)).source = (upTo source package depth).source :=
      (upTo_source source package depth).symm
    refine ⟨⟨fun _ hs => ?_, fun _ hs => ?_, fun _ hs => ?_⟩, fun _ hs hk => ?_⟩
    · rw [hsource]
      exact expression_runs hr hs
    · rw [hsource]
      exact operand_runs hr hs
    · rw [hsource]
      exact aStatement_runs hr hs
    · rw [hsource]
      exact aClass_runs hS hr hc hs hk

end Rules

/-! ### Scripts -/

namespace Script

variable {source : String}

theorem package_runs (hs : s.Sound S) :
    (package source).Ensures s fun _ s' => Run source (Placed source S) (.steps false) s s' := by
  unfold package
  simp only [ensures_bind, ensures_here, ensures_advance]
  have hadv : Run source (Placed source S) (.steps false) s s.advanced := .advance s
  refine (openMarker_runs source (Placed source S)).mono fun m s₁ hs₁ => ?_
  obtain ⟨hin, hcur, -⟩ := hs₁
  have hsound := hadv.sound hs
  refine (Rules.dottedPath_runs (Placed source S) (hin.sound hsound) _).mono fun path s₂ hs₂ => ?_
  obtain ⟨hrun, hfound, -, hsame⟩ := hs₂
  cases path with
  | some path =>
    simp only [ensures_bind, ensures_pure]
    exact (finish_runs false (hin.extend hrun) (congrArg Token.offset hcur)
      (fun _ => by exact trivial) (.inr (hin.moved hsound (hfound (by simp)).2))).mono
        fun _ _ h => hadv.append (.ended h.1)
  | none =>
    simp only [ensures_bind, ensures_pure]
    exact (reportHere_runs false (hin.extend hrun) (hsame rfl ▸ hcur) _).mono
      fun _ _ h => hadv.append (.ended h)

theorem importDecl_runs (hs : s.Sound S) (hk : s.draft.current.kind = .importKw) :
    (importDecl source).Ensures s fun _ s' => Run source (Placed source S) (.steps false) s s' := by
  unfold importDecl
  simp only [ensures_bind, ensures_here, ensures_advance]
  refine (openMarker_runs source (Placed source S)).mono fun m s₁ hs₁ => ?_
  obtain ⟨hin, hcur, -⟩ := hs₁
  have hin₂ := hin.extend (.advance s₁)
  have hsound := hin₂.sound hs
  have hmoved := hin.moved hs (moved_advanced (by rw [hcur, hk]; decide))
  have hplain := hs.plainAt (by rw [hk]; decide)
  rw [hcur]
  have hfinish (path : String) (rename : Option String) {s₃ : ParseState}
      (hs₃ : Run source (Placed source S) (.steps false) s₁.advanced s₃) :
      (finish m s.draft.current.offset (.importDecl path rename)).Ensures s₃
        fun _ s' => Run source (Placed source S) (.steps false) s s' :=
    (finish_runs false (hin₂.extend hs₃) rfl (fun _ => by exact hplain)
      (.inr (hs₃.keeps_moved hsound hmoved))).mono fun _ _ h => .ended h.1
  have hrest (path : String) {s₃ : ParseState}
      (hs₃ : Run source (Placed source S) (.steps false) s₁.advanced s₃) :
      (do
        let mut rename := none
        if ← accept .asKw then
          let t ← current
          if ← expect source .ident "alias" then rename := some (t.textIn source)
        finish m s.draft.current.offset (.importDecl path rename) : Production NodeId).Ensures s₃
      fun _ s' => Run source (Placed source S) (.steps false) s s' := by
    simp only [ensures_bind]
    refine (accept_runs source (Placed source S) false (by decide)).mono fun renamed s₄ hs₄ => ?_
    split
    · simp only [ensures_bind, ensures_current]
      refine (expect_runs (Placed source S) false (by decide) _ _).mono fun found s₅ hs₅ => ?_
      split
      · exact hfinish _ _ ((hs₃.append hs₄.1).append hs₅.1)
      · exact hfinish _ _ ((hs₃.append hs₄.1).append hs₅.1)
    · exact hfinish _ _ (hs₃.append hs₄.1)
  refine (Rules.dottedPath_runs (Placed source S) hsound _).mono fun path s₃ hs₃ => ?_
  cases path with
  | some path => exact hrest path hs₃.1
  | none =>
    simp only [ensures_bind]
    refine (expect_runs (Placed source S) false (by decide) _ _).mono fun _ s₄ hs₄ => ?_
    refine ensures_pure.mpr ?_
    simpa only [ensures_bind] using hrest "" (hs₃.1.append hs₄.1)

theorem part_runs {r : Rules} (hr : r.Runs S) (hc : r.RunsClasses S) (hs : s.Sound S)
    (read : PartsRead) :
    (part r read).Ensures s fun read' s' =>
      ∃ is, read'.classes.reverse = read.classes.reverse ++ is ∧ ClassRun r.source S s is s' := by
  have hnone {s' : ParseState} (h : Run r.source (Placed r.source S) (.steps false) s s') :
      ∃ is, read.classes.reverse = read.classes.reverse ++ is ∧ ClassRun r.source S s is s' :=
    ⟨[], (List.append_nil _).symm, .of_run hs h⟩
  unfold part
  simp only [ensures_bind, ensures_kind]
  split
  · next hk =>
    simp only [ensures_bind, ensures_pure]
    refine (importDecl_runs hs hk).mono fun _ s₁ hs₁ => ?_
    exact (accept_runs r.source (Placed r.source S) false (by decide)).mono fun _ _ h =>
      hnone (hs₁.append h.1)
  · next hk =>
    simp only [ensures_bind, ensures_pure]
    exact (hc s hs hk).mono fun n _ h => ⟨[n], List.reverse_cons, h⟩
  · simp only [ensures_bind, ensures_pure]
    exact (hr.statement s hs).mono fun _ _ h => hnone h

theorem parts_runs {r : Rules} (hr : r.Runs S) (hc : r.RunsClasses S) (hs : s.Sound S) :
    (parts r).Ensures s fun read s' => ClassRun r.source S s read.classes.reverse s' := by
  unfold parts
  refine repeatFrom_ensures (fun read s' => ClassRun r.source S s read.classes.reverse s')
    (.of_run hs (.refl s)) ?_
  intro read s₁ hread
  simp only [ensures_bind, ensures_atEnd]
  split
  · exact ensures_pure.mpr hread
  · simp only [ensures_bind, ensures_current, ensures_pure]
    refine (part_runs hr hc (hread.run.sound hs) read).mono fun read s₂ hs₂ => ?_
    obtain ⟨is, heq, hs₂⟩ := hs₂
    refine (skipIfStuck_runs r.source (Placed r.source S) false _).mono fun _ s₃ hs₃ => ?_
    change ClassRun r.source S s read.classes.reverse s₃
    rw [heq]
    exact (hread.trans hs hs₂).trans_run hs hs₃

/-- The classes in a script start at different places. -/
def ClassesApart (ast : Ast) : Prop :=
  ∀ n n' c c', ast.data? n = some (.classDecl c) → ast.data? n' = some (.classDecl c') →
    c.isScript = false → c'.isScript = false → (ast.span n).start = (ast.span n').start → n = n'

/-- The classes in a script start at different places, and those directly in a class stand in a
    row. -/
structure ClassesStand (ast : Ast) : Prop where
  apart : ClassesApart ast
  rows : ∀ n c, ast.data? n = some (.classDecl c) → ast.HoldsRow n c

/-- Of the nodes of a script, the block of its statements and its class are allocated last. -/
theorem ClassesStand.script {stmts : List NodeId} {c : ClassDecl} {span span' : Span}
    (h : ClassRun source S s₁ c.inner s₂) (hsize : s₁.ast.size = 0) (hscript : c.isScript = true) :
    ClassesStand
      (((s₂.allocated (.block stmts) span).advanced.allocated (.classDecl c) span').ast) := by
  have hast : s₂.ast.Extends
      ((s₂.allocated (.block stmts) span).advanced.allocated (.classDecl c) span').ast :=
    (s₂.extends_allocated _ span).trans (extends_allocated _ (.classDecl c) span')
  have hcases : ∀ n c',
      ((s₂.allocated (.block stmts) span).advanced.allocated (.classDecl c) span').ast.data? n =
        some (.classDecl c') → n < s₂.ast.size ∨ c' = c := by
    intro n c' hdata
    rcases Apart.class_of_allocated hdata with ⟨-, hold, -⟩ | ⟨-, hroot⟩
    · rcases Apart.class_of_allocated (s := s₂) hold with ⟨hlt, -⟩ | ⟨-, hblock⟩
      · exact .inl hlt
      · cases hblock
    · cases hroot
      exact .inr rfl
  have hzero (n : NodeId) : s₁.ast.size ≤ n := hsize ▸ Nat.zero_le n
  refine ⟨fun n n' c' c'' hdata hdata' hc hc' heq => ?_, fun n c' hdata => ?_⟩
  · have hlt {n : NodeId} {c' : ClassDecl} (hc : c'.isScript = false)
        (h : n < s₂.ast.size ∨ c' = c) : n < s₂.ast.size := by
      refine h.resolve_right ?_
      rintro rfl
      cases hscript.symm.trans hc
    obtain ⟨hold, hspan⟩ := Apart.class_of_extends hast hdata (hlt hc (hcases n c' hdata))
    obtain ⟨hold', hspan'⟩ := Apart.class_of_extends hast hdata' (hlt hc' (hcases n' c'' hdata'))
    exact h.apart.apart n n' c' c'' hold hold' (hzero n) (hzero n') (by rw [← hspan, ← hspan', heq])
  · rcases hcases n c' hdata with hlt | rfl
    · obtain ⟨hold, hspan⟩ := Apart.class_of_extends hast hdata hlt
      exact (h.rows n c' hold (hzero n)).later hast hspan
    · exact ⟨_, _, h.row.later hast, fun hc => by cases hscript.symm.trans hc⟩

/-- A script was read in a marker of its own, which ends with the class that the script stands for.
    That node does not start with a token. -/
inductive RunsScript (source : String) (S : Token → Prop) (s : ParseState) : ParseState → Prop
  | ends {m : MarkerId} {n : NodeId} {s₁ : ParseState} {d : Draft} :
      Run source (PlacedInScript source S) (.inside m) s s₁ → s.Moved s₁ →
      s₁.draft.closeWith m n s₁.ast = .ok d → ClassesStand s₁.ast →
      RunsScript source S s { s₁ with draft := d }

theorem script_runs (hS : Solid S) (hs : s.Sound S) (hahead : s.draft.ahead ≠ [])
    (hast : s.ast.size = 0) : (script source).Ensures s fun _ s' => RunsScript source S s s' := by
  unfold script
  simp only [ensures_bind, ensures_here]
  refine (openMarker_runs source (PlacedInScript source S)).mono fun m s₁ hs₁ => ?_
  obtain ⟨hin, -, -, hast₁⟩ := hs₁
  have hsound := hin.sound hs
  have hrest (declared : Option String) (start : Nat) {s₂ : ParseState}
      (hs₂ : ClassRun source S s₁ [] s₂) :
      (do
        let r := Rules.upTo source declared ((← get).draft.ahead.length + 1)
        let read ← parts r
        let body ← allocFrom start (.block read.stmts.reverse)
        advance
        let stop := (← current).span.stop
        let node ← alloc (.classDecl {
          package := declared
          inner := read.classes.reverse
          imports := read.imports.reverse
          body := some body
          isScript := true }) ⟨0, stop⟩
        close m node
        return node : Production NodeId).Ensures s₂ fun _ s' => RunsScript source S s s' := by
    simp only [ensures_bind, ensures_get]
    obtain ⟨hr, hc⟩ := Rules.upTo_runs hS source declared (s₂.draft.ahead.length + 1)
    refine (parts_runs hr hc (hs₂.run.sound hsound)).mono fun read s₃ hs₃ => ?_
    rw [Rules.upTo_source] at hs₃
    simp only [ensures_allocFrom, ensures_advance, ensures_current, ensures_alloc, ensures_pure]
    have hall := hs₂.trans hsound hs₃
    have hin₃ := hin.extend hall.run
    refine ensures_close.mpr fun d hd => ?_
    have hstand {c : ClassDecl} (span' : Span) (hscript : c.isScript = true)
        (hinner : c.inner = read.classes.reverse) :
        ClassesStand ((s₃.allocated (.block read.stmts.reverse)
          ⟨start, max s₃.lastEnd start⟩).advanced.allocated (.classDecl c) span').ast :=
      .script (hinner ▸ hall) (hast₁ ▸ hast) hscript
    have halloc : Run source (PlacedInScript source S) (.steps false) s₃
        (s₃.allocated (.block read.stmts.reverse) ⟨start, max s₃.lastEnd start⟩) :=
      .alloc s₃ (by exact trivial)
    have hin₄ := hin₃.extend halloc
    generalize s₃.allocated (.block read.stmts.reverse) ⟨start, max s₃.lastEnd start⟩ = s₄
      at hin₄ hd hstand
    have hadv : Run source (PlacedInScript source S) (.steps false) s₄ s₄.advanced := .advance s₄
    have hmoved : s.Moved s₄.advanced := by
      by_cases hnil : s₄.draft.ahead = []
      · refine hadv.keeps_moved (hin₄.sound hs) ?_
        unfold Moved
        rw [hnil]
        exact List.length_pos_iff.mpr hahead
      · exact hin₄.moved hs (moved_advanced_of_ne_nil (hin₄.sound hs) hnil)
    exact .ends ((hin₄.extend hadv).extend (.alloc _ (.inl rfl))) hmoved hd (hstand _ rfl rfl)
  rw [ensures_at?]
  split
  · simp only [ensures_bind]
    refine (package_runs hsound).mono fun declared s₂ hs₂ => ?_
    refine (accept_runs source (Placed source S) false (by decide)).mono fun _ s₃ hs₃ => ?_
    simpa only [ensures_bind] using hrest declared s₁.draft.current.offset
      (.of_run hsound (hs₂.append hs₃.1))
  · simpa only [ensures_bind] using hrest none s₁.draft.current.offset
      (.of_run hsound (.refl s₁))

end Script

/-! ### Texts -/

/-- The tokens of a text that are no trivia. -/
def Significant (text : String) (t : Token) : Prop := t ∈ scan text ∧ t.isTrivia = false

theorem significant_solid (text : String) : Solid (Significant text) :=
  fun _ ht hk => scan_solid text ht.1 hk

/-- What the parse of a text is, apart from the constructs it records. -/
structure ScriptRun (text : String) (p : Parse) : Prop where
  framed : Framed p.transcript.marker false p.transcript.events
  placed : ∀ n data, p.ast.data? n = some data →
    ∃ old, old.Alike data ∧ PlacedInScript text (Significant text) old (p.ast.span n)
  stand : Script.ClassesStand p.ast
  /-- The first event is the start of the marker that holds the script. -/
  concerned : ∀ before m after, p.transcript.events.tail = before ++ .start m :: after →
    (p.transcript.marker m).Concerns text p.ast (upcoming (tokensIn after) text.utf8ByteSize)

theorem textEnd_ofTokens (text : String) :
    (Draft.ofTokens (scan text) none).textEnd = text.utf8ByteSize := by
  obtain ⟨body, heq, -, -⟩ := scan_eq text
  unfold Draft.ofTokens
  rw [heq]
  simp [Span.point]

theorem sound_ofTokens (text : String) :
    ({ draft := Draft.ofTokens (scan text) none } : ParseState).Sound (Significant text) := by
  obtain ⟨body, heq, -, -⟩ := scan_eq text
  have hstop := textEnd_ofTokens text
  refine ⟨by simp [Draft.ofTokens], ?_, fun t ht htrivia => ⟨ht, htrivia⟩, ⟨?_, rfl⟩,
    (fit_ofTokens text).tiles⟩
  · intro t ht
    have hlast : (scan text).getLast? = some t := ht
    rw [heq, List.getLast?_concat] at hlast
    obtain rfl := Option.some.inj hlast
    rfl
  · rw [hstop, heq]
    simp

theorem ScriptRun.of_parse {text : String} {p : Parse} (h : parseScript text = .ok p) :
    ScriptRun text p := by
  obtain ⟨root, s, hrun, hahead, rfl⟩ := parseScript_run h
  have hs := sound_ofTokens text
  have hnonempty : scan text ≠ [] := by
    obtain ⟨body, heq, -, -⟩ := scan_eq text
    rw [heq]
    simp
  have hruns : (Script.script text).Ensures { draft := Draft.ofTokens (scan text) none } fun _ s' =>
      Script.RunsScript text (Significant text) { draft := Draft.ofTokens (scan text) none } s' :=
    Script.script_runs (significant_solid text) hs hnonempty rfl
  cases hruns root s hrun with
  | @ends m n s₁ d hin hmoved hd hstand =>
    obtain ⟨p, hp⟩ := hin.records hs
    have hover := Draft.closeWith_over hp.new.2 hp.history hp.not_mem hd
    have hwhole : Closed m false _ _ p := hp.ends hover fun _ => .inr hmoved
    have hevents : d.events = .start m :: p ++ [.stop m] := by
      unfold Draft.events
      rw [hwhole.events]
      simp [Draft.ofTokens]
    refine ⟨hevents ▸ hwhole.framed, fun n data hdata =>
      hin.allocates.new n data hdata (Nat.zero_le n), hstand, fun before id after hsplit => ?_⟩
    have hconcerns := ((hin.told hs).concerned _ hp.toWrites).inside hp hover before id after
      (by simpa [hevents] using hsplit)
    dsimp only at hconcerns hahead
    rw [hahead, List.append_nil, hover.textEnd, hp.textEnd, textEnd_ofTokens] at hconcerns
    exact hconcerns

end ScriptAnalysis

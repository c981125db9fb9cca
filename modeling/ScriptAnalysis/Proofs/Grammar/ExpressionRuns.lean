import ScriptAnalysis.Proofs.Grammar.Expressions
import ScriptAnalysis.Proofs.Grammar.Run
import ScriptAnalysis.Proofs.Recording.AnyOrder

/-!
# Names, types, variables and expressions step by step

Each production is a run, and every node that it allocates is `Placed`: what the resolver may report
a fault on starts with a token.  A part that may be missing, such as a parameter, is a run that is
`led` unless its first token is ahead.

An expression is a run in a marker of its own, so that another marker may be opened before it;
unless a closing token stands in its place, it consumes a token.
-/

namespace ScriptAnalysis

open ParseState

/-! ### Where nodes stand -/

section

variable (source : String) (S : Token → Prop) (name : String) (offset : Nat)

/-- A token other than the keyword of a class starts here. -/
def PlainAt : Prop := ∃ t, S t ∧ t.kind ≠ .classKw ∧ t.offset = offset

/-- A token that is this name starts here. -/
def NameAt : Prop := ∃ t, S t ∧ t.kind = .ident ∧ t.textIn source = name ∧ t.offset = offset

/-- It stands in the span. -/
def NameIn (span : Span) : Prop := ∃ t, S t ∧ t.kind = .ident ∧ t.textIn source = name ∧
  t.offset = offset ∧ span.start ≤ t.span.start ∧ t.span.stop ≤ span.stop

end

section

variable {source : String} {S : Token → Prop} {name : String} {offset : Nat} {span span' : Span}

theorem NameIn.nameAt (h : NameIn source S name offset span) : NameAt source S name offset := by
  obtain ⟨t, ht, hident, htext, hoffset, -⟩ := h
  exact ⟨t, ht, hident, htext, hoffset⟩

theorem NameIn.wider (h : NameIn source S name offset span) (hstart : span'.start ≤ span.start)
    (hstop : span.stop ≤ span'.stop) : NameIn source S name offset span' := by
  obtain ⟨t, ht, hident, htext, hoffset, hle, hle'⟩ := h
  exact ⟨t, ht, hident, htext, hoffset, Nat.le_trans hstart hle, Nat.le_trans hle' hstop⟩

end

/-- Where a node stands that the resolver may report a fault on.  A class is no part of a
    statement. -/
def Placed (source : String) (S : Token → Prop) (data : NodeData) (span : Span) : Prop :=
  match data with
  | .identifier _ | .assign _ _ | .literal _ | .listLiteral _ | .invokeNew _ _
  | .importDecl _ _ => PlainAt S span.start
  | .varDeclExpr v => (v.type.isBuiltin = false → PlainAt S span.start) ∧
      (v.name ≠ "" → NameIn source S v.name v.nameOffset span)
  | .funDeclExpr f => (f.returnType.isBuiltin = false → PlainAt S span.start) ∧
      (f.name ≠ "" → NameIn source S f.name f.nameOffset span)
  | .classDecl _ => False
  | _ => True

variable {S : Token → Prop} {s₀ s s' : ParseState} {m : MarkerId}

theorem ParseState.Sound.plainAt (h : s.Sound S) (hk : s.draft.current.kind ≠ .classKw) :
    PlainAt S s.draft.current.offset := ⟨_, h.current, hk, rfl⟩

namespace Production

/-! ### Building blocks -/

section

variable (text : String) (P : NodeData → Span → Prop) (led : Bool)

@[simp] theorem ensures_advance {Q : Unit → ParseState → Prop} :
    advance.Ensures s Q ↔ Q () s.advanced := ensures_modify

theorem openMarker_runs : openMarker.Ensures s fun m s' => Run text P (.inside m) s s' ∧
    s'.draft.current = s.draft.current ∧ s'.lastEnd = s.lastEnd ∧ s'.ast = s.ast := by
  refine ensures_recordNew.mpr fun m d hopen => ⟨.openMarker hopen, ?_⟩
  unfold Draft.openMarker at hopen
  split at hopen
  · cases hopen
  · cases hopen
    exact ⟨rfl, rfl, rfl⟩

theorem accept_runs {k : TokenKind} (hk : k ≠ .eof) : (accept k).Ensures s fun found s' =>
    Run text P (.steps led) s s' ∧ (found = true → s.draft.current.kind = k ∧ s.Moved s') ∧
      (found = false → s' = s) := by
  unfold accept
  simp only [ensures_bind, ensures_at?]
  split
  · next hat =>
    have hcur : s.draft.current.kind = k := by simpa [Draft.at?] using hat
    simp only [ensures_bind, ensures_advance, ensures_pure]
    exact ⟨.advance s, fun _ => ⟨hcur, moved_advanced (hcur ▸ hk)⟩, by simp⟩
  · exact ensures_pure.mpr ⟨.refl s, by simp, fun _ => rfl⟩

variable {text P}

theorem openBefore_runs (h : Run text P (.whole m false) s₀ s) :
    (openBefore m).Ensures s fun m' s' =>
    Run text P (.inside m') s₀ s' ∧ s'.draft.current = s.draft.current ∧
      (s₀.Moved s → s₀.Moved s') ∧ s'.ast = s.ast := by
  refine ensures_recordNew.mpr fun m' d hopen => ⟨.openBefore h hopen, ?_⟩
  unfold Draft.openBefore at hopen
  split at hopen
  · cases hopen
  · cases hopen
    exact ⟨rfl, id, rfl⟩

/-- A state in which the tokens ahead are the same. -/
theorem moved_congr {d : Draft} (hd : d.ahead = s.draft.ahead) (h : s₀.Moved s) :
    s₀.Moved { s with draft := d } := by
  unfold Moved at h ⊢
  rw [hd]
  exact h

/-- A marker ends with a node that starts where the marker was opened. -/
theorem close_runs {n : NodeId} (h : Run text P (.inside m) s₀ s)
    (hstarts : s.ast.StartsAt n s₀.draft.current.offset) (hled : led = true ∨ s₀.Moved s) :
    (close m n).Ensures s fun _ s' =>
      Run text P (.whole m led) s₀ s' ∧ (s₀.Moved s → s₀.Moved s') :=
  ensures_close.mpr fun _ hd =>
    ⟨.close h hd hstarts hled, moved_congr (Draft.closeWith_stops hd).ahead⟩

/-- The end of a marker is no token. -/
theorem close_lastEnd (m : MarkerId) (n : NodeId) (s : ParseState) :
    (close m n).Ensures s fun _ s' => s'.lastEnd = s.lastEnd := ensures_close.mpr fun _ _ => rfl

theorem closeGroup_runs (h : Run text P (.inside m) s₀ s) (hled : led = true ∨ s₀.Moved s) :
    (closeGroup m).Ensures s fun _ s' => Run text P (.whole m led) s₀ s' :=
  ensures_record.mpr fun _ hd => .closeGroup h hd hled

theorem dissolve_runs (h : Run text P (.inside m) s₀ s) :
    (dissolve m).Ensures s fun _ s' =>
      Run text P (.whole m led) s₀ s' ∧ (s₀.Moved s → s₀.Moved s') :=
  ensures_record.mpr fun _ hd => ⟨.dissolve h hd, moved_congr (Draft.dissolve_stops hd).ahead⟩

/-- A fault is that of the token that was next when the marker was opened. -/
theorem report_runs {message : String} {span : Span} (h : Run text P (.inside m) s₀ s)
    (hblames : Blames text s₀.draft.current (.ofParse message span)) :
    (report m message span).Ensures s fun _ s' =>
      Run text P (.whole m led) s₀ s' ∧ (s₀.Moved s → s₀.Moved s') :=
  ensures_record.mpr fun _ hd =>
    ⟨.report h hd hblames, moved_congr (Draft.closeError_stops hd).ahead⟩

theorem finish_runs {start : Nat} {data : NodeData} (h : Run text P (.inside m) s₀ s)
    (hstart : start = s₀.draft.current.offset) (hP : ∀ stop, P data ⟨start, stop⟩)
    (hled : led = true ∨ s₀.Moved s) :
    (finish m start data).Ensures s fun _ s' =>
      Run text P (.whole m led) s₀ s' ∧ (s₀.Moved s → s₀.Moved s') := by
  unfold finish
  simp only [ensures_bind, ensures_allocFrom, ensures_pure]
  exact close_runs led (h.extend (.alloc s (hP _))) (hstart ▸ startsAt_allocated s data _) hled

theorem finish_state (m : MarkerId) (start : Nat) (data : NodeData) :
    (finish m start data).Ensures s fun n s' => n = s.ast.size ∧
      s'.ast = (s.allocated data ⟨start, max s.lastEnd start⟩).ast ∧ s'.lastEnd = s.lastEnd := by
  unfold finish
  rw [ensures_bind, ensures_allocFrom, ensures_bind, ensures_close]
  exact fun d _ => ensures_pure.mpr ⟨rfl, rfl, rfl⟩

theorem reportHere_runs (h : Run text P (.inside m) s₀ s)
    (hcur : s.draft.current = s₀.draft.current) (what : String) :
    (reportHere text m what).Ensures s fun _ s' => Run text P (.whole m led) s₀ s' := by
  unfold reportHere
  simp only [ensures_bind, ensures_current]
  rw [hcur]
  exact (report_runs led h (.unexpected what)).mono fun _ _ hs' => hs'.1

variable (P)

theorem expect_runs {k : TokenKind} (hk : k ≠ .eof) (text what : String) :
    (expect text k what).Ensures s fun found s' =>
      Run text P (.steps led) s s' ∧ (found = true → s.draft.current.kind = k ∧ s.Moved s') := by
  unfold expect
  simp only [ensures_bind]
  refine (accept_runs text P led hk).mono fun found s₁ hs₁ => ?_
  obtain ⟨hrun, hfound, hmissing⟩ := hs₁
  cases found with
  | true => exact ensures_pure.mpr ⟨hrun, hfound⟩
  | false =>
    obtain rfl := hmissing rfl
    simp only [Bool.false_eq_true, if_false, ensures_bind, ensures_pure]
    refine (openMarker_runs text P).mono fun m s₂ hs₂ => ?_
    exact (reportHere_runs led hs₂.1 hs₂.2.1 _).mono fun _ _ hs₃ => ⟨.ended hs₃, by simp⟩

theorem skipUnexpected_runs (text what : String) :
    (skipUnexpected text what).Ensures s fun _ s' => Run text P (.steps led) s s' := by
  unfold skipUnexpected
  simp only [ensures_bind, ensures_current]
  refine (openMarker_runs text P).mono fun m s₁ hs₁ => ?_
  obtain ⟨hin, hcur, -⟩ := hs₁
  have hblames : Blames text s.draft.current
      (.ofParse (unexpected text s₁.draft.current what) s₁.draft.current.span) :=
    hcur ▸ .unexpected what
  split
  · rw [ensures_bind, ensures_advance]
    exact (report_runs led (hin.extend (.advance s₁)) hblames).mono fun _ _ hs₂ => .ended hs₂.1
  · exact (report_runs led hin hblames).mono fun _ _ hs₂ => .ended hs₂.1

variable (text)

theorem skipIfStuck_runs (before : Token) :
    (skipIfStuck before).Ensures s fun _ s' => Run text P (.steps led) s s' := by
  unfold skipIfStuck
  simp only [ensures_bind, ensures_current]
  split
  · exact ensures_advance.mpr (.advance s)
  · exact ensures_pure.mpr (.refl s)

variable {text P}

/-- Items between commas.  Behind a comma an item may be missing, and in front of it if the items
    are led or `C` holds. -/
theorem separated_runs {α : Type} {item : Production α} {C : ParseState → Prop} (hs : s.Sound S)
    (hfirst : led = true ∨ C s)
    (hitem : ∀ (s : ParseState) (led : Bool), s.Sound S → led = true ∨ C s →
      item.Ensures s fun _ s' => Run text P (.steps led) s s') :
    (separated item).Ensures s fun _ s' => Run text P (.steps led) s s' := by
  unfold separated
  refine repeatFrom_ensures (fun _ s' => s' = s ∨ Run text P (.steps led) s s' ∧ s.Moved s')
    (.inl rfl) ?_
  rintro read s₁ hread
  simp only [ensures_bind]
  have hone : item.Ensures s₁ fun _ s₂ => Run text P (.steps led) s s₂ := by
    rcases hread with rfl | ⟨hrun, hmoved⟩
    · exact hitem s₁ led hs hfirst
    · exact (hitem s₁ true (hrun.sound hs) (.inl rfl)).mono fun _ s₂ hs₂ =>
        hrun.trans hs₂ fun _ => .inr hmoved
  refine hone.mono fun a s₂ hs₂ => ?_
  refine (accept_runs text P false (by decide)).mono fun found s₃ hs₃ => ?_
  obtain ⟨hrun, hfound, hmissing⟩ := hs₃
  cases found with
  | true => exact ensures_pure.mpr (.inr ⟨hs₂.append hrun, hs₂.moved hs (hfound rfl).2⟩)
  | false =>
    obtain rfl := hmissing rfl
    exact ensures_pure.mpr hs₂

end

end Production

open Production

/-- A node that starts here, and if it stands for braces, so does what is between them. -/
def Ast.BracesAt (ast : Ast) (n : NodeId) (offset : Nat) : Prop :=
  ast.StartsAt n offset ∧ ∀ params body isBlock,
    ast.data? n = some (.closure params body isBlock) → ast.StartsAt body offset

/-- An expression was read in a marker of its own. -/
structure RunsExpr (text : String) (S : Token → Prop) (s : ParseState) (e : Parsed)
    (s' : ParseState) : Prop where
  run : Run text (Placed text S) (.whole e.marker false) s s'
  moved : isCloser s.draft.current.kind = false → s.Moved s'
  braces : s.draft.current.kind = .leftBrace → s'.ast.BracesAt e.node s.draft.current.offset

/-- The productions that refer to each other in a circle are runs. -/
structure Rules.Runs (S : Token → Prop) (r : Rules) : Prop where
  expr : ∀ s : ParseState, s.Sound S → r.expr.Ensures s (RunsExpr r.source S s)
  unary : ∀ s : ParseState, s.Sound S → r.unary.Ensures s (RunsExpr r.source S s)
  statement : ∀ s : ParseState, s.Sound S →
    r.statement.Ensures s fun _ s' => Run r.source (Placed r.source S) (.steps false) s s'

theorem ne_eof_of_not_isCloser {kind : TokenKind} (h : isCloser kind = false) : kind ≠ .eof := by
  rintro rfl
  cases h

namespace Rules

variable {r : Rules}

/-! ### Names and types -/

theorem dottedPath_runs (P : NodeData → Span → Prop) (hs : s.Sound S) (source : String) :
    (dottedPath source).Ensures s fun path s' => Run source P (.steps false) s s' ∧
      (path ≠ none → s.draft.current.kind = .ident ∧ s.Moved s') ∧
      (s.draft.current.kind = .ident → path ≠ none) ∧ (path = none → s' = s) := by
  unfold dottedPath
  simp only [ensures_bind, ensures_current]
  split
  · next hident => exact ensures_pure.mpr ⟨.refl s, by simp, fun h => absurd h hident, fun _ => rfl⟩
  · next hident =>
    have hident := not_not.mp hident
    have hmoved : s.Moved s.advanced := moved_advanced (by rw [hident]; decide)
    simp only [ensures_bind, ensures_advance, ensures_pure]
    refine repeatFrom_ensures (fun _ s' => Run source P (.steps false) s s' ∧ s.Moved s')
      ⟨.advance s, hmoved⟩ ?_
    rintro path s₁ ⟨hrun, hmoved⟩
    simp only [ensures_bind, ensures_at?, ensures_kindAfter]
    split
    · simp only [ensures_bind, ensures_current, ensures_advance, ensures_pure]
      have hstep : Run source P (.steps false) s₁ s₁.advanced.advanced :=
        .trans (.advance s₁) (show Run source P (.steps false) _ _ from .advance _) (by simp)
      exact ⟨hrun.trans hstep (by simp), hstep.keeps_moved (hrun.sound hs) hmoved⟩
    · exact ensures_pure.mpr ⟨hrun, fun _ => ⟨hident, hmoved⟩, by simp, by simp⟩

/-- A name is that of a token, or missing. -/
theorem name_runs (hs : s.Sound S) (nameKind : NameKind) :
    (r.name nameKind).Ensures s fun found s' =>
      Run r.source (Placed r.source S) (.steps false) s s' ∧
      (s.draft.current.kind = .ident → s.Moved s') ∧
      (found.1 ≠ "" →
        NameIn r.source S found.1 found.2 ⟨s.draft.current.offset, s'.lastEnd⟩) := by
  unfold name
  simp only [ensures_bind, ensures_current]
  split
  · next hident =>
    simp only [ensures_bind, ensures_pure]
    exact (expect_runs (Placed r.source S) _ (by decide) _ _).mono fun _ s₁ hs₁ =>
      ⟨hs₁.1, fun h => absurd h hident, by simp⟩
  · next hident =>
    have hident := not_not.mp hident
    simp only [ensures_bind, ensures_advance, ensures_alloc, ensures_pure]
    refine (openMarker_runs r.source (Placed r.source S)).mono fun m s₁ hs₁ => ?_
    obtain ⟨hin, hcur, -⟩ := hs₁
    have hmoved : s.Moved s₁.advanced := hin.moved hs (moved_advanced (by
      rw [hcur, hident]
      decide))
    refine ((close_runs false ((hin.extend (.advance s₁)).extend (.alloc _ (by exact trivial)))
      (startsAt_allocated _ _ _) (.inr hmoved)).and (close_lastEnd m _ _)).mono fun _ s₂ hs₂ => ?_
    obtain ⟨⟨hrun, hkept⟩, hlast⟩ := hs₂
    refine ⟨.ended hrun, fun _ => hkept hmoved, fun _ => ⟨_, hs.current, hident, rfl, rfl,
      Nat.le_refl _, Nat.le_of_eq ?_⟩⟩
    rw [← hcur]
    exact hlast.symm

/-- A type starts with a token, and that of a class with a name. -/
theorem type_runs (hs : s.Sound S) :
    r.type.Ensures s fun type s' => Run r.source (Placed r.source S) (.steps false) s s' ∧
      (startsType s.draft.current.kind = true → s.Moved s') ∧
      (type.isBuiltin = false → s.draft.current.kind = .ident) := by
  unfold type
  simp only [ensures_bind, ensures_here, ensures_kind]
  refine (openMarker_runs r.source (Placed r.source S)).mono fun m s₁ hs₁ => ?_
  obtain ⟨hin, hcur, -⟩ := hs₁
  rw [← hcur]
  split
  · next declared hdeclared =>
    have hk : s₁.draft.current.kind ≠ .eof := by
      intro heof
      rw [heof] at hdeclared
      cases hdeclared
    have hbuiltin : declared.isBuiltin = true := by
      revert hdeclared
      cases s₁.draft.current.kind <;> simp only [keywordType?] <;> rintro ⟨⟩ <;> rfl
    simp only [ensures_bind, ensures_advance, ensures_pure]
    have hmoved : s.Moved s₁.advanced := hin.moved hs (moved_advanced hk)
    exact (finish_runs false (hin.extend (.advance s₁)) (congrArg Token.offset hcur)
      (fun _ => by exact trivial) (.inr hmoved)).mono
        fun _ s₂ hs₂ => ⟨.ended hs₂.1, fun _ => hs₂.2 hmoved, by simp [hbuiltin]⟩
  · next hnone =>
    simp only [ensures_bind]
    refine (dottedPath_runs (Placed r.source S) (hin.sound hs) _).mono fun path s₂ hs₂ => ?_
    obtain ⟨hrun, hfound, hmissing, hsame⟩ := hs₂
    cases path with
    | some path =>
      obtain ⟨hident, hmoved⟩ := hfound (by simp)
      have hmoved := hin.moved hs hmoved
      simp only [ensures_bind, ensures_pure]
      exact (finish_runs false (hin.extend hrun) (congrArg Token.offset hcur)
        (fun _ => by exact trivial) (.inr hmoved)).mono
          fun _ s₃ hs₃ => ⟨.ended hs₃.1, fun _ => hs₃.2 hmoved, fun _ => hident⟩
    | none =>
      simp only [ensures_bind, ensures_pure]
      refine (reportHere_runs false (hin.extend hrun) (hsame rfl ▸ hcur) _).mono fun _ s₃ hs₃ =>
        ⟨.ended hs₃, fun hstarts => ?_, by simp [TypeRef.isBuiltin]⟩
      rw [startsType, ← keywordType?_isSome, hnone] at hstarts
      exact absurd rfl (hmissing (by simpa using hstarts))

/-! ### Variables and parameters -/

/-- A variable starts with its type or, without one, with its name; if both may be missing the
    variable is led. -/
theorem varDecl_runs (hr : r.Runs S) (hs : s.Sound S) (role : VarRole) (typed led : Bool)
    (hled : led = true ∨ startsType s.draft.current.kind = true ∧
      (typed = false → s.draft.current.kind = .ident)) :
    (r.varDecl role typed).Ensures s
      fun _ s' => Run r.source (Placed r.source S) (.steps led) s s' := by
  unfold varDecl
  simp only [ensures_bind, ensures_here]
  refine (openMarker_runs r.source (Placed r.source S)).mono fun m s₁ hs₁ => ?_
  obtain ⟨hin, hcur, -⟩ := hs₁
  have hsound := hin.sound hs
  rw [← hcur] at hled
  have htype : (if typed = true then r.type else pure .any : Production TypeRef).Ensures s₁
      fun type s₂ => Run r.source (Placed r.source S) (.steps false) s₁ s₂ ∧
        (typed = true → startsType s₁.draft.current.kind = true → s₁.Moved s₂) ∧
        (typed = false → s₂ = s₁) ∧
        (type.isBuiltin = false → s₁.draft.current.kind = .ident) := by
    split
    · next htyped =>
      exact (type_runs hsound).mono fun _ s₂ hs₂ =>
        ⟨hs₂.1, fun _ => hs₂.2.1, by simp [htyped], hs₂.2.2⟩
    · next htyped =>
      exact ensures_pure.mpr ⟨.refl _, fun h => absurd h htyped, by simp,
        by simp [TypeRef.isBuiltin]⟩
  simp only [ite_bind, ensures_bind]
  refine htype.mono fun declared s₂ hs₂ => ?_
  obtain ⟨htypeRun, htypeMoved, huntyped, hdeclared⟩ := hs₂
  refine (name_runs (htypeRun.sound hsound) role.nameKind).mono fun found s₃ hs₃ => ?_
  obtain ⟨hnameRun, hnameMoved, hfound⟩ := hs₃
  have hhead := htypeRun.append hnameRun
  have hmoved : led = true ∨ s₁.Moved s₃ := by
    refine hled.imp_right fun hfirst => ?_
    obtain ⟨hstarts, hident⟩ := hfirst
    cases typed with
    | true => exact hnameRun.keeps_moved (htypeRun.sound hsound) (htypeMoved rfl hstarts)
    | false =>
      obtain rfl := huntyped rfl
      exact hnameMoved (hident rfl)
  refine (accept_runs r.source (Placed r.source S) false (by decide)).mono fun equal s₄ hs₄ => ?_
  have hhead₄ := hhead.append hs₄.1
  have hinit : (if equal = true then some <$> Parsed.node <$> r.expr else pure none :
      Production (Option NodeId)).Ensures s₄
        fun _ s₅ => Run r.source (Placed r.source S) (.steps false) s₃ s₅ := by
    split
    · simp only [ensures_map]
      exact (hr.expr s₄ (hhead₄.sound hsound)).mono fun _ s₅ he => hs₄.1.append (.ended he.run)
    · exact ensures_pure.mpr hs₄.1
  refine hinit.mono fun init s₅ hs₅ => ?_
  simp only [ensures_spanFrom, ensures_alloc, ensures_pure]
  have hdecl : Placed r.source S (.varDeclExpr ⟨found.1, found.2, declared, init, role⟩)
      ⟨s₁.draft.current.offset, max s₅.lastEnd s₁.draft.current.offset⟩ := by
    refine ⟨fun hnamed => hsound.plainAt ?_, fun hname => ?_⟩
    · rw [hdeclared hnamed]
      decide
    · exact (hfound hname).wider (htypeRun.forth hsound).here
        (Nat.le_trans (hs₅.forth (hhead.sound hsound)).lastEnd (Nat.le_max_left ..))
  have hbody := hin.extend (hhead.append hs₅)
  have hled' : led = true ∨ s.Moved s₅ := hmoved.imp_right fun hmoved =>
    hin.moved hs (hs₅.keeps_moved (hhead.sound hsound) hmoved)
  exact (close_runs led ((hbody.extend (.alloc s₅ hdecl)).extend (.alloc _ (by exact trivial)))
    (hcur ▸ startsAt_allocated _ _ _) hled').mono fun _ s₆ hs₆ => .ended hs₆.1

theorem param_runs (hr : r.Runs S) (hs : s.Sound S) (led : Bool)
    (hled : led = true ∨ startsType s.draft.current.kind = true) :
    r.param.Ensures s fun _ s' => Run r.source (Placed r.source S) (.steps led) s s' := by
  unfold param
  simp only [ensures_bind, ensures_kindAfter, ensures_at?]
  refine varDecl_runs hr hs _ _ led (hled.imp_right fun hstarts => ⟨hstarts, fun huntyped => ?_⟩)
  rw [Bool.not_eq_false', Bool.and_eq_true] at huntyped
  simpa [Draft.at?] using huntyped.1

theorem separated_param_runs (hr : r.Runs S) (hs : s.Sound S) (led : Bool)
    (hled : led = true ∨ startsType s.draft.current.kind = true) :
    (separated r.param).Ensures s fun _ s' => Run r.source (Placed r.source S) (.steps led) s s' :=
  separated_runs led (C := fun s => startsType s.draft.current.kind = true) hs hled
    fun _ led hs' hled' => param_runs hr hs' led hled'

/-- Without a parenthesis the group of the parameters is empty. -/
theorem params_runs (hr : r.Runs S) (hs : s.Sound S) :
    r.params.Ensures s fun _ s' => Run r.source (Placed r.source S) (.steps true) s s' := by
  unfold params
  simp only [ensures_bind]
  refine (openMarker_runs r.source (Placed r.source S)).mono fun m s₁ hs₁ => ?_
  have hin := hs₁.1
  refine (expect_runs (Placed r.source S) false (by decide) _ _).mono fun found s₂ hs₂ => ?_
  obtain ⟨hparen, hmoved⟩ := hs₂
  have hin₂ := hin.extend hparen
  have hclose {s₃ : ParseState} (hs₃ : Run r.source (Placed r.source S) (.inside m) s s₃) :
      (closeGroup m).Ensures s₃ fun _ s' => Run r.source (Placed r.source S) (.steps true) s s' :=
    (closeGroup_runs true hs₃ (.inl rfl)).mono fun _ _ hs₄ => .ended hs₄
  split
  · next hfound =>
    simp only [ensures_bind, ensures_at?]
    split
    · simp only [ensures_bind, ensures_pure]
      refine (separated_param_runs hr (hin₂.sound hs) true (.inl rfl)).mono fun ns s₃ hs₃ => ?_
      have hin₃ := hin₂.more hs₃ fun _ => hin.moved hs (hmoved hfound).2
      exact (expect_runs (Placed r.source S) false (by decide) _ _).mono fun _ s₄ hs₄ =>
        hclose (hin₃.extend hs₄.1)
    · simp only [ensures_bind, ensures_pure]
      exact (expect_runs (Placed r.source S) false (by decide) _ _).mono fun _ s₃ hs₃ =>
        hclose (hin₂.extend hs₃.1)
  · simp only [ensures_bind, ensures_pure]
    exact hclose hin₂

/-! ### Arguments, statements and closures -/

theorem args_runs (hr : r.Runs S) (hs : s.Sound S) (hk : s.draft.current.kind ≠ .eof)
    {closing : TokenKind} (hclosing : closing ≠ .eof) (what : String) :
    (r.args closing what).Ensures s fun _ s' =>
      Run r.source (Placed r.source S) (.steps false) s s' ∧ s.Moved s' := by
  unfold args
  simp only [ensures_bind, ensures_advance, ensures_at?]
  have hadv : Run r.source (Placed r.source S) (.steps false) s s.advanced := .advance s
  have hmoved := moved_advanced hk
  split
  · simp only [ensures_bind, ensures_pure]
    refine (separated_runs false (C := fun _ => True) (hadv.sound hs) (.inr trivial)
      fun s led hs _ => (ensures_map.mpr ((hr.expr s hs).mono fun _ _ he =>
        Run.trans (.refl s) (.ended he.run) (by simp)))).mono fun ns s₂ hs₂ => ?_
    have hrun := hadv.append hs₂
    exact (expect_runs (Placed r.source S) false hclosing _ _).mono fun _ s₃ hs₃ =>
      ⟨hrun.append hs₃.1, (hs₂.append hs₃.1).keeps_moved (hadv.sound hs) hmoved⟩
  · simp only [ensures_bind, ensures_pure]
    exact (expect_runs (Placed r.source S) false hclosing _ _).mono fun _ s₃ hs₃ =>
      ⟨hadv.append hs₃.1, hs₃.1.keeps_moved (hadv.sound hs) hmoved⟩

theorem statementsUntil_runs (hr : r.Runs S) (hs : s.Sound S) (stop : TokenKind) :
    (r.statementsUntil stop).Ensures s
      fun _ s' => Run r.source (Placed r.source S) (.steps false) s s' := by
  unfold statementsUntil
  refine repeatFrom_ensures (fun _ s' => Run r.source (Placed r.source S) (.steps false) s s')
    (.refl s) ?_
  intro read s₁ hrun
  simp only [ensures_bind, ensures_at?, ensures_atEnd]
  split
  · exact ensures_pure.mpr hrun
  · simp only [ensures_bind, ensures_current, ensures_pure]
    refine (hr.statement s₁ (hrun.sound hs)).mono fun stmt s₂ hs₂ => ?_
    exact (skipIfStuck_runs r.source (Placed r.source S) false _).mono fun _ s₃ hs₃ =>
      (hrun.append hs₂).append hs₃

/-- The attempt to read parameters starts with the first of them. -/
theorem closureParams_runs (hr : r.Runs S) (hs : s.Sound S) :
    r.closureParams.Ensures s fun _ s' => Run r.source (Placed r.source S) (.steps false) s s' := by
  unfold closureParams
  simp only [ensures_bind, ensures_kind]
  split
  · exact ensures_pure.mpr (.refl s)
  · next hnext =>
    have hstarts : startsType s.draft.current.kind = true := by
      rw [startsType, Bool.or_eq_true]
      rw [Bool.and_eq_true, not_and_or] at hnext
      simpa [or_comm] using hnext
    simp only [ensures_bind, ensures_get]
    refine (openMarker_runs r.source (Placed r.source S)).mono fun m s₁ hs₁ => ?_
    obtain ⟨hin, hcur, hlast, -⟩ := hs₁
    refine (separated_param_runs hr (hin.sound hs) false (.inr (hcur ▸ hstarts))).mono
      fun declared s₂ hs₂ => ?_
    refine (accept_runs r.source (Placed r.source S) false (by decide)).mono fun found s₃ hs₃ => ?_
    have hin₃ := (hin.extend hs₂).extend hs₃.1
    split
    · next hfound =>
      simp only [ensures_bind, ensures_pure]
      have hmoved : s.Moved s₃ := (hin.extend hs₂).moved hs (hs₃.2.1 hfound).2
      exact (closeGroup_runs false hin₃ (.inr hmoved)).mono fun _ _ hs₄ => .ended hs₄
    · unfold undo
      simp only [ensures_bind, ensures_record, ensures_modify, ensures_pure, hlast]
      exact fun d hd => .undo hin₃ hd

/-! ### Primary expressions -/

/-- A new node stands for no braces, unless it is a closure. -/
theorem bracesAt_allocated (s : ParseState) {data : NodeData} {span : Span}
    (hdata : ∀ params body isBlock, data ≠ .closure params body isBlock) :
    (s.allocated data span).ast.BracesAt s.ast.size span.start := by
  refine ⟨startsAt_allocated s data span, fun params body isBlock hclosure => ?_⟩
  rw [s.data?_allocated] at hclosure
  exact absurd (Option.some.inj hclosure) (hdata params body isBlock)

/-- A node that holds a token ends the marker of an expression. -/
theorem finish_expr_runs {start : Nat} {data : NodeData}
    (h : Run r.source (Placed r.source S) (.inside m) s₀ s)
    (hstart : start = s₀.draft.current.offset)
    (hdata : ∀ stop, Placed r.source S data ⟨start, stop⟩)
    (hplain : ∀ params body isBlock, data ≠ .closure params body isBlock) (hmoved : s₀.Moved s) :
    (finish m start data).Ensures s fun n s' => RunsExpr r.source S s₀ ⟨m, n⟩ s' := by
  refine ((finish_runs false h hstart hdata (.inr hmoved)).and (finish_state m start data)).mono
    fun n s' hs' => ⟨hs'.1.1, fun _ => hs'.1.2 hmoved, fun _ => ?_⟩
  obtain ⟨-, rfl, hast, -⟩ := hs'
  rw [hast, ← hstart]
  exact bracesAt_allocated s hplain

/-- A fault in place of an expression means nothing. -/
theorem report_noop_runs {message : String} (h : Run r.source (Placed r.source S) (.inside m) s₀ s)
    (hblames : Blames r.source s₀.draft.current (.ofParse message s₀.draft.current.span))
    (hmoved : isCloser s₀.draft.current.kind = false → s₀.Moved s) :
    (do
      report m message s₀.draft.current.span
      return ⟨m, ← alloc .noop s₀.draft.current.span⟩ : Production Parsed).Ensures s
      fun e s' => RunsExpr r.source S s₀ e s' := by
  simp only [ensures_bind, ensures_alloc, ensures_pure]
  exact (report_runs false h hblames).mono fun _ s' hs' =>
    ⟨hs'.1.behind (by exact trivial), fun hk => hs'.2 (hmoved hk),
      fun _ => bracesAt_allocated s' (by simp)⟩

section

variable (hs : s₀.Sound S) (hin : Run r.source (Placed r.source S) (.inside m) s₀ s)
  (hcur : s.draft.current = s₀.draft.current)

include hs hin

theorem moved_advanced_inside (hk : s.draft.current.kind ≠ .eof) : s₀.Moved s.advanced :=
  hin.moved hs (moved_advanced hk)

theorem simple_runs {data : NodeData} (hk : s.draft.current.kind ≠ .eof)
    (hdata : ∀ stop, Placed r.source S data ⟨s₀.draft.current.offset, stop⟩)
    (hplain : ∀ params body isBlock, data ≠ .closure params body isBlock) :
    (simple m s₀.draft.current data).Ensures s fun e s' => RunsExpr r.source S s₀ e s' := by
  unfold simple
  simp only [ensures_bind, ensures_advance, ensures_pure]
  exact finish_expr_runs (hin.extend (.advance s)) rfl hdata hplain
    (moved_advanced_inside hs hin hk)

include hcur

/-- The closure and the block in it start with the brace. -/
theorem closure_runs (hr : r.Runs S) (hk : s.draft.current.kind ≠ .eof) :
    (r.closure m).Ensures s fun e s' => RunsExpr r.source S s₀ e s' := by
  unfold closure
  simp only [ensures_bind, ensures_here, ensures_advance]
  have hadv : Run r.source (Placed r.source S) (.steps false) s s.advanced := .advance s
  have hsound := (hin.extend hadv).sound hs
  refine (closureParams_runs hr hsound).mono fun declared s₂ hs₂ => ?_
  refine (statementsUntil_runs hr (hs₂.sound hsound) _).mono fun stmts s₃ hs₃ => ?_
  refine (expect_runs (Placed r.source S) false (by decide) _ _).mono fun _ s₄ hs₄ => ?_
  simp only [ensures_spanFrom, ensures_alloc, ensures_pure]
  have hbody := (hs₂.append hs₃).append hs₄.1
  have hmoved : s₀.Moved s₄ :=
    hbody.keeps_moved hsound (moved_advanced_inside hs hin hk)
  have hinner := (hin.extend hadv).extend hbody
  have hbody := (startsAt_allocated s₄ (.block stmts)
    ⟨s.draft.current.offset, max s₄.lastEnd s.draft.current.offset⟩).later
      (extends_allocated _ (.closure declared s₄.ast.size false)
        ⟨s.draft.current.offset, max s₄.lastEnd s.draft.current.offset⟩)
  rw [hcur] at hbody ⊢
  refine ensures_close.mpr fun d hd => ?_
  refine ⟨.close ((hinner.extend (.alloc s₄ (by exact trivial))).extend
    (.alloc _ (by exact trivial))) hd (startsAt_allocated _ _ _) (.inr hmoved),
    fun _ => moved_congr (Draft.closeWith_stops hd).ahead hmoved,
    fun _ => ⟨startsAt_allocated _ _ _, fun params body isBlock hclosure => ?_⟩⟩
  rw [data?_allocated] at hclosure
  cases hclosure
  exact hbody

theorem missingExpression_runs :
    (r.missingExpression m s₀.draft.current).Ensures s fun e s' => RunsExpr r.source S s₀ e s' := by
  unfold missingExpression
  dsimp only
  split
  · next hcloser =>
    have hk : s.draft.current.kind ≠ .eof := by
      rw [hcur]
      exact ne_eof_of_not_isCloser (by simpa using hcloser)
    rw [ensures_bind, ensures_advance]
    exact report_noop_runs (hin.extend (.advance s)) (.unexpected _)
      fun _ => moved_advanced_inside hs hin hk
  · next hcloser =>
    exact report_noop_runs hin (.unexpected _) fun h => absurd h (by simpa using hcloser)

theorem intLiteral_runs (hk : s₀.draft.current.kind = .intLiteral) :
    (r.intLiteral m s₀.draft.current).Ensures s fun e s' => RunsExpr r.source S s₀ e s' := by
  unfold intLiteral
  rw [ensures_bind, ensures_advance]
  have hmoved := moved_advanced_inside hs hin (by rw [hcur, hk]; decide)
  split
  · simp only [ensures_bind, ensures_pure]
    exact finish_expr_runs (hin.extend (.advance s)) rfl
      (fun _ => hs.plainAt (by rw [hk]; decide)) (by simp) hmoved
  · exact report_noop_runs (hin.extend (.advance s)) (.tooLarge hk) fun _ => hmoved

end

/-- What is created starts with its keyword, and the class with a name, if there is one. -/
theorem invokeNew_runs (hr : r.Runs S) (hs : s.Sound S) (hk : s.draft.current.kind = .newKw) :
    r.invokeNew.Ensures s fun data s' =>
      Run r.source (Placed r.source S) (.steps false) s s' ∧ s.Moved s' ∧
      (∀ stop, Placed r.source S data ⟨s.draft.current.offset, stop⟩) ∧
      ∃ className args, data = .invokeNew className args := by
  unfold invokeNew
  simp only [ensures_bind, ensures_advance, ensures_at?]
  have hadv : Run r.source (Placed r.source S) (.steps false) s s.advanced := .advance s
  have hmoved : s.Moved s.advanced := moved_advanced (by rw [hk]; decide)
  have hplain := hs.plainAt (by rw [hk]; decide)
  refine (type_runs (hadv.sound hs)).mono fun type s₂ hs₂ => ?_
  have hrun := hadv.append hs₂.1
  split
  · next hparen =>
    simp only [ensures_bind, ensures_pure]
    have hk₂ : s₂.draft.current.kind ≠ .eof := by
      rw [show s₂.draft.current.kind = .leftParen by simpa [Draft.at?] using hparen]
      decide
    exact (args_runs hr (hrun.sound hs) hk₂ (by decide) _).mono fun _ s₃ hs₃ =>
      ⟨hrun.append hs₃.1, (hs₂.1.append hs₃.1).keeps_moved (hadv.sound hs) hmoved,
        fun _ => hplain, _, _, rfl⟩
  · simp only [ensures_bind, ensures_pure]
    exact (expect_runs (Placed r.source S) false (by decide) _ _).mono fun _ s₃ hs₃ =>
      ⟨hrun.append hs₃.1, (hs₂.1.append hs₃.1).keeps_moved (hadv.sound hs) hmoved,
        fun _ => hplain, _, _, rfl⟩

theorem primary_runs (hr : r.Runs S) (hs : s.Sound S) :
    r.primary.Ensures s (RunsExpr r.source S s) := by
  unfold primary
  simp only [ensures_bind, ensures_current]
  refine (openMarker_runs r.source (Placed r.source S)).mono fun m s₁ hs₁ => ?_
  obtain ⟨hin, hcur, -⟩ := hs₁
  have hsound := hin.sound hs
  have hliteral {literal : Literal} (hk : s.draft.current.kind ≠ .eof)
      (hclass : s.draft.current.kind ≠ .classKw) :
      (simple m s.draft.current (.literal literal)).Ensures s₁ fun e s' =>
        RunsExpr r.source S s e s' :=
    simple_runs hs hin (hcur ▸ hk) (fun _ => hs.plainAt hclass) (by simp)
  split
  · next hk => exact intLiteral_runs hs hin hcur hk
  · next hk => exact hliteral (by rw [hk]; decide) (by rw [hk]; decide)
  · next hk => exact hliteral (by rw [hk]; decide) (by rw [hk]; decide)
  · next hk => exact hliteral (by rw [hk]; decide) (by rw [hk]; decide)
  · next hk => exact hliteral (by rw [hk]; decide) (by rw [hk]; decide)
  · next hk => exact hliteral (by rw [hk]; decide) (by rw [hk]; decide)
  · next hk =>
    exact simple_runs hs hin (by rw [hcur, hk]; decide)
      (fun _ => hs.plainAt (by rw [hk]; decide)) (by simp)
  · next hk =>
    simp only [ensures_bind, ensures_advance, ensures_pure]
    have hin₂ := hin.extend (.advance s₁)
    have hmoved := moved_advanced_inside hs hin (by rw [hcur, hk]; decide)
    refine (hr.expr _ (hin₂.sound hs)).mono fun inner s₂ hinner => ?_
    refine (expect_runs (Placed r.source S) false (by decide) _ _).mono fun _ s₃ hs₃ => ?_
    have hrest := (Run.ended hinner.run).append hs₃.1
    have hmoved := hrest.keeps_moved (hin₂.sound hs) hmoved
    exact (dissolve_runs false (hin₂.extend hrest)).mono fun _ s₄ hs₄ =>
      ⟨hs₄.1, fun _ => hs₄.2 hmoved, fun hbrace => by rw [hk] at hbrace; cases hbrace⟩
  · next hk =>
    simp only [ensures_bind, ensures_pure]
    refine (args_runs hr hsound (by rw [hcur, hk]; decide) (by decide) _).mono
      fun items s₂ hs₂ => ?_
    exact finish_expr_runs (hin.extend hs₂.1) rfl (fun _ => hs.plainAt (by rw [hk]; decide))
      (by simp) (hin.moved hs hs₂.2)
  · next hk => exact closure_runs hs hin hcur hr (by rw [hcur, hk]; decide)
  · next hk =>
    simp only [ensures_bind, ensures_pure]
    refine (invokeNew_runs hr hsound (by rw [hcur, hk])).mono fun data s₂ hs₂ => ?_
    obtain ⟨hrun, hmoved, hdata, className, args, rfl⟩ := hs₂
    exact finish_expr_runs (hin.extend hrun) rfl (hcur ▸ hdata) (by simp) (hin.moved hs hmoved)
  · exact missingExpression_runs hs hin hcur

/-! ### Calls and operators -/

theorem member_runs (hr : r.Runs S) (hs : s.Sound S) (hk : s.draft.current.kind ≠ .eof)
    (target : NodeId) : (r.member target).Ensures s fun data s' =>
      Run r.source (Placed r.source S) (.steps false) s s' ∧ s.Moved s' ∧
        ∃ name args, data = .methodCall target name args := by
  unfold member
  simp only [ensures_bind, ensures_advance, ensures_current]
  have hadv : Run r.source (Placed r.source S) (.steps false) s s.advanced := .advance s
  refine (expect_runs (Placed r.source S) false (by decide) _ _).mono fun found s₂ hs₂ => ?_
  have hrun := hadv.append hs₂.1
  have hmoved := hs₂.1.keeps_moved (hadv.sound hs) (moved_advanced hk)
  have hrest (name : String) : (do
      if ← at? .leftParen then
        return .methodCall target name (some (← r.args .rightParen "')'"))
      return .methodCall target name none : Production NodeData).Ensures s₂ fun data s' =>
        Run r.source (Placed r.source S) (.steps false) s s' ∧ s.Moved s' ∧
          ∃ name args, data = .methodCall target name args := by
    simp only [ensures_bind, ensures_at?]
    split
    · next hparen =>
      simp only [ensures_bind, ensures_pure]
      have hk₂ : s₂.draft.current.kind ≠ .eof := by
        rw [show s₂.draft.current.kind = .leftParen by simpa [Draft.at?] using hparen]
        decide
      exact (args_runs hr (hrun.sound hs) hk₂ (by decide) _).mono fun _ s₃ hs₃ =>
        ⟨hrun.append hs₃.1, hrun.moved hs hs₃.2, _, _, rfl⟩
    · exact ensures_pure.mpr ⟨hrun, hmoved, _, _, rfl⟩
  split
  · rw [pure_bind]
    exact hrest _
  · rw [pure_bind]
    exact hrest _

theorem suffixed_runs (hr : r.Runs S) (hs : s.Sound S) :
    r.suffixed.Ensures s (RunsExpr r.source S s) := by
  unfold suffixed
  simp only [ensures_bind, ensures_here]
  refine (primary_runs hr hs).mono fun e s₁ he => ?_
  refine repeatFrom_ensures (RunsExpr r.source S s) he fun target s₂ htarget => ?_
  simp only [ensures_bind, ensures_kind]
  split
  · next hk =>
    simp only [ensures_bind, ensures_pure]
    refine (openBefore_runs htarget.run).mono fun m s₃ hs₃ => ?_
    obtain ⟨hin, hcur, -⟩ := hs₃
    refine (args_runs hr (hin.sound hs) (by rw [hcur, hk]; decide) (by decide) _).mono
      fun read s₄ hs₄ => ?_
    exact finish_expr_runs (hin.extend hs₄.1) rfl (fun _ => by exact trivial) (by simp)
      (hin.moved hs hs₄.2)
  · next hk =>
    simp only [ensures_bind, ensures_pure]
    refine (openBefore_runs htarget.run).mono fun m s₃ hs₃ => ?_
    obtain ⟨hin, hcur, -⟩ := hs₃
    refine (member_runs hr (hin.sound hs) (by rw [hcur, hk]; decide) _).mono
      fun data s₄ hs₄ => ?_
    obtain ⟨hrun, hmoved, name, args, rfl⟩ := hs₄
    exact finish_expr_runs (hin.extend hrun) rfl (fun _ => by exact trivial) (by simp)
      (hin.moved hs hmoved)
  · exact ensures_pure.mpr htarget

theorem operand_runs (hr : r.Runs S) (hs : s.Sound S) :
    r.operand.Ensures s (RunsExpr r.source S s) := by
  unfold operand
  simp only [ensures_bind, ensures_kind]
  split
  · exact suffixed_runs hr hs
  · next op hop =>
    simp only [ensures_bind, ensures_here, ensures_advance, ensures_pure]
    refine (openMarker_runs r.source (Placed r.source S)).mono fun m s₁ hs₁ => ?_
    obtain ⟨hin, hcur, -⟩ := hs₁
    have hin₂ := hin.extend (.advance s₁)
    have hmoved := moved_advanced_inside hs hin (by
      intro heof
      rw [hcur] at heof
      rw [heof] at hop
      cases hop)
    refine (hr.unary _ (hin₂.sound hs)).mono fun inner s₂ hinner => ?_
    have hrun := Run.ended hinner.run
    exact finish_expr_runs (hin₂.extend hrun) (congrArg Token.offset hcur)
      (fun _ => by exact trivial) (by simp) (hrun.keeps_moved (hin₂.sound hs) hmoved)

/-- Operands and operators of one level after the other, by induction on the levels. -/
theorem binary_runs (hr : r.Runs S) {levels : List (List (TokenKind × BinaryOp))}
    (heof : ∀ operators ∈ levels, operators.lookup .eof = none) (hs : s.Sound S) :
    (r.binary levels).Ensures s (RunsExpr r.source S s) := by
  induction levels generalizing s with
  | nil => exact operand_runs hr hs
  | cons operators tighter ih =>
    have ih {s : ParseState} := @ih s fun operators hmem => heof operators (.tail _ hmem)
    unfold binary
    simp only [ensures_bind, ensures_here]
    refine (ih hs).mono fun first s₁ hfirst => ?_
    refine repeatFrom_ensures (RunsExpr r.source S s) hfirst fun left s₂ hleft => ?_
    simp only [ensures_bind, ensures_kind]
    split
    · exact ensures_pure.mpr hleft
    · next op hop =>
      simp only [ensures_bind, ensures_advance, ensures_pure]
      refine (openBefore_runs hleft.run).mono fun m s₃ hs₃ => ?_
      obtain ⟨hin, hcur, -⟩ := hs₃
      have hin₄ := hin.extend (.advance s₃)
      have hmoved := moved_advanced_inside hs hin (by
        intro hk
        rw [hcur] at hk
        rw [hk, heof operators (.head _)] at hop
        cases hop)
      refine (ih (hin₄.sound hs)).mono fun right s₄ hright => ?_
      have hrun := Run.ended hright.run
      exact finish_expr_runs (hin₄.extend hrun) rfl (fun _ => by exact trivial) (by simp)
        (hrun.keeps_moved (hin₄.sound hs) hmoved)

theorem expression_runs (hr : r.Runs S) (hs : s.Sound S) :
    r.expression.Ensures s (RunsExpr r.source S s) := by
  unfold expression
  simp only [ensures_bind, ensures_at?, ensures_kindAfter]
  split
  · next hat =>
    have hident : s.draft.current.kind = .ident := by
      simpa [Draft.at?] using (Bool.and_eq_true _ _ |>.mp hat).1
    simp only [ensures_bind, ensures_current, ensures_advance, ensures_pure]
    refine (openMarker_runs r.source (Placed r.source S)).mono fun m s₁ hs₁ => ?_
    obtain ⟨hin, hcur, -⟩ := hs₁
    have hin₂ := hin.extend (.advance s₁)
    have hadv : Run r.source (Placed r.source S) (.steps false) s₁.advanced s₁.advanced.advanced :=
      .advance _
    have hmoved := moved_advanced_inside hs hin (by rw [hcur, hident]; decide)
    have hin₃ := hin₂.extend hadv
    refine (hr.expr _ (hin₃.sound hs)).mono fun value s₂ hvalue => ?_
    have hrun := hadv.append (.ended hvalue.run)
    rw [hcur]
    exact finish_expr_runs (hin₂.extend hrun) rfl (fun _ => hs.plainAt (by rw [hident]; decide))
      (by simp) (hrun.keeps_moved (hin₂.sound hs) hmoved)
  · exact binary_runs hr binaryLevels_lookup_eof hs

end Rules

end ScriptAnalysis

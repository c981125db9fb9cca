import ScriptAnalysis.Grammar.Script
import ScriptAnalysis.Proofs.Recording.Limits

/-!
# A cancelled parse

`Production.Cancels` says of a production that a limit on the number of markers has one effect only:
the parse may end as cancelled.  If it does not, then it does what it does without a limit.  It is
cancelled exactly if it comes to open more markers than the limit allows, and how many it opens does
not depend on the limit.

Every production has this property, because opening a marker has it, because nothing else looks at
the limit, and because sequences and loops hand it on.  It is a class, so that it is found by the
way a production is put together; only where a production looks at a value case by case do its
cases have to be told apart.
-/

namespace ScriptAnalysis

namespace ParseState

/-- The same state with another limit. -/
def limited (s : ParseState) (n : Option Nat) : ParseState := { s with draft := s.draft.limited n }

@[simp] theorem limited_draft (s : ParseState) (n : Option Nat) :
    (s.limited n).draft = s.draft.limited n := rfl

end ParseState

namespace Production

variable {α β : Type}

/-- The production asks for this number of markers.  With a limit it does what it does without one,
    unless the limit is used up before. -/
def Asks (p : Production α) (s : ParseState) (calls : Nat) : Prop :=
  ∀ n, p.run (s.limited n) = (spendMarks calls n).bind fun n' =>
    (p.run (s.limited none)).map fun r => (r.1, r.2.limited n')

/-- From each state the production asks for a definite number of markers. -/
class Cancels (p : Production α) : Prop where
  run_limited (s : ParseState) : ∃ calls, p.Asks s calls

/-- A production that opens no marker and does not look at the limit. -/
theorem cancels_of_unlimited {p : Production α}
    (hp : ∀ (s : ParseState) (n : Option Nat), p.run (s.limited n) =
      (p.run (s.limited none)).map fun r => (r.1, r.2.limited n)) : p.Cancels := by
  refine ⟨fun s => ⟨0, fun n => ?_⟩⟩
  rw [spendMarks_zero]
  exact hp s n

/-! ### Sequences and loops -/

instance cancels_pure (a : α) : (pure a : Production α).Cancels :=
  cancels_of_unlimited fun _ _ => rfl

instance cancels_throw (e : Fault) : (throw e : Production α).Cancels :=
  cancels_of_unlimited fun _ _ => rfl

theorem run_bind_ok {p : Production α} {f : α → Production β} {s s' : ParseState} {a : α}
    (h : p.run s = .ok (a, s')) : (p >>= f).run s = (f a).run s' := by
  rw [StateT.run_bind, h]
  rfl

theorem run_bind_error {p : Production α} {f : α → Production β} {s : ParseState} {e : Fault}
    (h : p.run s = .error e) : (p >>= f).run s = .error e := by
  rw [StateT.run_bind, h]
  rfl

/-- What is done one after the other opens as many markers as its parts together. -/
instance cancels_bind {p : Production α} {f : α → Production β} [hp : p.Cancels]
    [hf : ∀ a, (f a).Cancels] : (p >>= f).Cancels := by
  refine ⟨fun s => ?_⟩
  obtain ⟨calls, hcalls⟩ := hp.run_limited s
  cases hp₀ : p.run (s.limited none) with
  | error e =>
    refine ⟨calls, fun n => ?_⟩
    have hn := hcalls n
    rw [hp₀] at hn
    rw [run_bind_error hp₀]
    cases hspend : spendMarks calls n with
    | error e' =>
      rw [hspend] at hn
      exact run_bind_error hn
    | ok n' =>
      rw [hspend] at hn
      exact run_bind_error hn
  | ok r =>
    obtain ⟨a, s'⟩ := r
    -- Without a limit there is none afterwards.
    have hs' : s' = s'.limited none := by
      have h₀ := hcalls none
      rw [hp₀] at h₀
      exact congrArg Prod.snd (Except.ok.inj h₀)
    obtain ⟨more, hmore⟩ := (hf a).run_limited s'
    refine ⟨calls + more, fun n => ?_⟩
    have hn := hcalls n
    rw [hp₀] at hn
    rw [run_bind_ok hp₀, spendMarks_add]
    cases hspend : spendMarks calls n with
    | error e =>
      rw [hspend] at hn
      exact run_bind_error hn
    | ok n' =>
      rw [hspend] at hn
      rw [run_bind_ok hn, hmore n', ← hs']
      rfl

/-- What follows may have to be looked at case by case. -/
theorem cancels_then {p : Production α} {f : α → Production β} [p.Cancels]
    (hf : ∀ a, (f a).Cancels) : (p >>= f).Cancels := inferInstance

instance cancels_map {p : Production α} {f : α → β} [hp : p.Cancels] :
    (f <$> p).Cancels := by
  rw [← bind_pure_comp]
  infer_instance

instance cancels_ite {c : Prop} [Decidable c] {p q : Production α} [hp : p.Cancels]
    [hq : q.Cancels] : (if c then p else q).Cancels := by
  split
  · exact hp
  · exact hq

/-- Reading the state is harmless where the limit is not used. -/
theorem cancels_get_bind {f : ParseState → Production β}
    [hf : ∀ s, (f s).Cancels]
    (hcongr : ∀ s n, f (s.limited n) = f s) :
    (get >>= f : Production β).Cancels := by
  refine ⟨fun s => ?_⟩
  have hrun : ∀ n, (get >>= f : Production β).run (s.limited n) = (f s).run (s.limited n) := by
    intro n
    rw [run_bind_ok (a := s.limited n) rfl, hcongr]
  unfold Asks
  simp only [hrun]
  exact (hf s).run_limited s

theorem cancels_modify {f : ParseState → ParseState}
    (hf : ∀ s n, f (s.limited n) = (f s).limited n) : (modify f : Production Unit).Cancels := by
  refine cancels_of_unlimited fun s n => ?_
  have hrun : ∀ s, (modify f : Production Unit).run s = .ok ((), f s) := fun _ => rfl
  rw [hrun, hrun, hf, hf]
  rfl

theorem cancels_modifyGet {f : ParseState → α × ParseState}
    (hf : ∀ s n, f (s.limited n) = ((f s).1, (f s).2.limited n)) :
    (modifyGet f : Production α).Cancels := by
  refine cancels_of_unlimited fun s n => ?_
  have hrun : ∀ s, (modifyGet f : Production α).run s = .ok (f s) := fun _ => rfl
  rw [hrun, hrun, hf, hf]
  rfl

/-- By induction on the bound. -/
theorem cancels_iterate {step : α → Production (α ⊕ β)} [∀ a, (step a).Cancels]
    (bound : Nat) (a : α) : (iterate step bound a).Cancels := by
  induction bound generalizing a with
  | zero => exact cancels_throw .tooDeep
  | succ bound ih =>
    apply cancels_then
    intro r
    cases r with
    | inl next => exact ih next
    | inr result => exact cancels_pure result

instance cancels_repeatFrom {step : α → Production (α ⊕ β)}
    [∀ a, (step a).Cancels] (a : α) : (repeatFrom step a).Cancels :=
  have (s : ParseState) : (iterate step (s.draft.ahead.length + 1) a).Cancels := cancels_iterate _ a
  cancels_get_bind fun _ _ => rfl

/-! ### Building blocks -/

instance cancels_current : current.Cancels :=
  cancels_get_bind fun _ _ => rfl

instance cancels_kind : kind.Cancels :=
  cancels_get_bind fun _ _ => rfl

instance cancels_kindAfter (n : Nat) : (kindAfter n).Cancels :=
  cancels_get_bind fun _ _ => rfl

instance cancels_at? (k : TokenKind) : (at? k).Cancels :=
  cancels_get_bind fun _ _ => rfl

instance cancels_atEnd : atEnd.Cancels :=
  cancels_get_bind fun _ _ => rfl

instance cancels_here : here.Cancels :=
  cancels_get_bind fun _ _ => rfl

instance cancels_spanFrom (start : Nat) : (spanFrom start).Cancels :=
  cancels_get_bind fun _ _ => rfl

instance cancels_advance : advance.Cancels := cancels_modify fun _ _ => rfl

instance cancels_alloc (data : NodeData) (span : Span) : (alloc data span).Cancels :=
  cancels_modifyGet fun _ _ => rfl

theorem cancels_record {f : Draft → Except Fault Draft} (hf : Draft.Unlimited f) :
    (record f).Cancels := by
  refine cancels_of_unlimited fun s n => ?_
  have hrun : ∀ s, (record f).run s = (f s.draft).map fun draft => ((), { s with draft }) := by
    intro s
    unfold record
    rw [StateT.run]
    cases f s.draft with
    | error e => rfl
    | ok d => rfl
  rw [hrun, hrun, ParseState.limited_draft, ParseState.limited_draft, hf, hf]
  cases f s.draft with
  | error e => rfl
  | ok d => rfl

theorem run_recordNew (f : Draft → Except Fault (MarkerId × Draft)) (s : ParseState) :
    (recordNew f).run s = (f s.draft).map fun r => (r.1, { s with draft := r.2 }) := by
  unfold recordNew
  rw [StateT.run]
  cases f s.draft with
  | error e => rfl
  | ok r => rfl

/-- Only here is a marker counted. -/
instance cancels_openMarker : openMarker.Cancels := by
  refine ⟨fun s => ⟨1, fun n => ?_⟩⟩
  unfold openMarker
  rw [run_recordNew, run_recordNew, ParseState.limited_draft, ParseState.limited_draft,
    Draft.openMarker_limited]
  cases spendMarks 1 n with
  | error e => rfl
  | ok n' =>
    cases (s.draft.limited none).openMarker with
    | error e => rfl
    | ok r => rfl

instance cancels_openBefore (inner : MarkerId) : (openBefore inner).Cancels := by
  refine cancels_of_unlimited fun s n => ?_
  unfold openBefore
  rw [run_recordNew, run_recordNew, ParseState.limited_draft, ParseState.limited_draft]
  rw [Draft.openBefore_limited, Draft.openBefore_limited]
  cases s.draft.openBefore inner with
  | error e => rfl
  | ok r => rfl

instance cancels_close (id : MarkerId) (node : NodeId) : (close id node).Cancels :=
  have (s : ParseState) : (record (·.closeWith id node s.ast)).Cancels :=
    cancels_record (Draft.closeWith_unlimited id node s.ast)
  cancels_get_bind (f := fun s => record (·.closeWith id node s.ast)) fun _ _ => rfl

instance cancels_closeGroup (id : MarkerId) : (closeGroup id).Cancels :=
  cancels_record (Draft.closeGroup_unlimited id)

instance cancels_dissolve (id : MarkerId) : (dissolve id).Cancels :=
  cancels_record (Draft.dissolve_unlimited id)

instance cancels_report (id : MarkerId) (message : String) (span : Span) :
    (report id message span).Cancels :=
  cancels_record (Draft.closeError_unlimited id _)

instance cancels_undo (id : MarkerId) (lastEnd : Nat) : (undo id lastEnd).Cancels :=
  have := cancels_record (Draft.undo_unlimited id)
  have := cancels_modify (f := fun s => { s with lastEnd }) fun _ _ => rfl
  cancels_bind

instance cancels_accept (k : TokenKind) : (accept k).Cancels := by
  unfold accept
  infer_instance

instance cancels_skipIfStuck (before : Token) : (skipIfStuck before).Cancels := by
  unfold skipIfStuck
  infer_instance

instance cancels_finish (id : MarkerId) (start : Nat) (data : NodeData) :
    (finish id start data).Cancels := by
  unfold finish allocFrom
  infer_instance

instance cancels_reportHere (source : String) (id : MarkerId) (what : String) :
    (reportHere source id what).Cancels := by
  unfold reportHere
  infer_instance

instance cancels_expect (source : String) (k : TokenKind) (what : String) :
    (expect source k what).Cancels := by
  unfold expect
  infer_instance

instance cancels_skipUnexpected (source what : String) :
    (skipUnexpected source what).Cancels := by
  unfold skipUnexpected
  infer_instance

instance cancels_separated {item : Production α} [item.Cancels] :
    (separated item).Cancels := by
  unfold separated
  infer_instance

end Production

/-! ### The grammar -/

open Production

-- An instance is as large as the production that it is for.
set_option synthInstance.maxSize 4000

/-- The productions that the others refer to have the property. -/
class Rules.Cancels (r : Rules) : Prop where
  expr : r.expr.Cancels
  unary : r.unary.Cancels
  statement : r.statement.Cancels
  classDecl : r.classDecl.Cancels

attribute [instance] Rules.Cancels.expr Rules.Cancels.unary Rules.Cancels.statement
  Rules.Cancels.classDecl

namespace Rules

instance cancels_declarationShape : declarationShape.Cancels :=
  cancels_get_bind fun _ _ => rfl

instance cancels_dottedPath (source : String) : (dottedPath source).Cancels := by
  unfold dottedPath
  infer_instance

variable (r : Rules)

instance cancels_name (nameKind : NameKind) : (r.name nameKind).Cancels := by
  unfold name
  infer_instance

instance cancels_type : r.type.Cancels := by
  unfold type
  refine cancels_then fun m => cancels_then fun start =>
    cancels_then ?_
  intro k
  cases keywordType? k with
  | some declared => infer_instance
  | none =>
    apply cancels_then
    intro path
    cases path with
    | some path => infer_instance
    | none => infer_instance

variable [r.Cancels]

instance cancels_varDecl (role : VarRole) (typed : Bool) : (r.varDecl role typed).Cancels := by
  unfold varDecl
  dsimp only
  infer_instance

instance cancels_param : r.param.Cancels := by
  unfold param
  infer_instance

instance cancels_params : r.params.Cancels := by
  unfold params
  dsimp only
  infer_instance

instance cancels_args (closing : TokenKind) (what : String) : (r.args closing what).Cancels := by
  unfold args
  dsimp only
  infer_instance

instance cancels_statementsUntil (stop : TokenKind) : (r.statementsUntil stop).Cancels := by
  unfold statementsUntil
  infer_instance

instance cancels_closureParams : r.closureParams.Cancels := by
  unfold closureParams
  apply cancels_then
  intro next
  have (m : MarkerId) : (do
      let lastEnd := (← get).lastEnd
      let declared ← separated r.param
      if ← accept .arrow then
        closeGroup m
        return declared
      undo m lastEnd
      return [] : Production (List NodeId)).Cancels := cancels_get_bind fun _ _ => rfl
  infer_instance

instance cancels_closure (m : MarkerId) : (r.closure m).Cancels := by
  unfold closure
  infer_instance

instance cancels_invokeNew : r.invokeNew.Cancels := by
  unfold invokeNew
  infer_instance

instance cancels_missingExpression (m : MarkerId) (t : Token) :
    (r.missingExpression m t).Cancels := by
  unfold missingExpression
  dsimp only
  infer_instance

instance cancels_intLiteral (m : MarkerId) (t : Token) : (r.intLiteral m t).Cancels := by
  unfold intLiteral
  apply cancels_then
  intro _
  cases intValue? (r.text t) with
  | some value => infer_instance
  | none => infer_instance

instance cancels_simple (m : MarkerId) (t : Token) (data : NodeData) :
    (simple m t data).Cancels := by
  unfold simple
  infer_instance

instance cancels_primary : r.primary.Cancels := by
  unfold primary
  apply cancels_then
  intro t
  apply cancels_then
  intro m
  split <;> infer_instance

instance cancels_member (target : NodeId) : (r.member target).Cancels := by
  unfold member
  dsimp only
  infer_instance

instance cancels_suffixed : r.suffixed.Cancels := by
  unfold suffixed
  apply cancels_then
  intro start
  apply cancels_then
  intro first
  refine @cancels_repeatFrom _ _ _ (fun target => cancels_then fun k => ?_) first
  split <;> infer_instance

instance cancels_operand : r.operand.Cancels := by
  unfold operand
  apply cancels_then
  intro k
  cases unaryOp? k with
  | none => infer_instance
  | some op => infer_instance

/-- By induction on the levels. -/
instance cancels_binary (levels : List (List (TokenKind × BinaryOp))) :
    (r.binary levels).Cancels := by
  induction levels with
  | nil => exact cancels_operand r
  | cons operators tighter ih =>
    unfold binary
    apply cancels_then
    intro start
    apply cancels_then
    intro first
    refine @cancels_repeatFrom _ _ _ (fun left => cancels_then fun k => ?_) first
    cases operators.lookup k with
    | none => infer_instance
    | some op => infer_instance

instance cancels_expression : r.expression.Cancels := by
  unfold expression
  infer_instance

/-! ### Statements and classes -/

instance cancels_block : r.block.Cancels := by
  unfold block
  dsimp only
  infer_instance

instance cancels_funDecl (isMethod : Bool) : (r.funDecl isMethod).Cancels := by
  unfold funDecl
  infer_instance

instance cancels_bracedStatement : r.bracedStatement.Cancels := by
  unfold bracedStatement
  dsimp only
  refine cancels_then fun braces => cancels_then fun m => ?_
  refine @cancels_get_bind _ _ (fun s => ?_) fun _ _ => rfl
  split
  · refine @cancels_bind _ _ _ _ (cancels_modify fun _ _ => rfl) ?_
    intro _
    infer_instance
  · refine @cancels_get_bind _ _ (fun s => ?_) fun _ _ => rfl
    infer_instance

instance cancels_branch : r.branch.Cancels := by
  unfold branch
  apply cancels_then
  intro stmt
  cases stmt with
  | some stmt => infer_instance
  | none =>
    refine @cancels_get_bind _ _ (fun s => ?_) fun _ _ => rfl
    unfold allocFrom
    infer_instance

instance cancels_condition : r.condition.Cancels := by
  unfold condition
  infer_instance

instance cancels_ifStatement : r.ifStatement.Cancels := by
  unfold ifStatement
  dsimp only
  infer_instance

instance cancels_whileStatement : r.whileStatement.Cancels := by
  unfold whileStatement
  infer_instance

instance cancels_returnStatement : r.returnStatement.Cancels := by
  unfold returnStatement
  dsimp only
  infer_instance

instance cancels_expressionStatement : r.expressionStatement.Cancels := by
  unfold expressionStatement
  infer_instance

instance cancels_emptyStatement : emptyStatement.Cancels := by
  unfold emptyStatement
  infer_instance

instance cancels_strayToken : r.strayToken.Cancels := by
  unfold strayToken
  apply cancels_then
  intro k
  split <;> infer_instance

instance cancels_plainStatement : r.plainStatement.Cancels := by
  unfold plainStatement
  apply cancels_then
  intro shape
  split <;> infer_instance

instance cancels_aStatement : r.aStatement.Cancels := by
  unfold aStatement
  dsimp only
  apply cancels_then
  intro k
  split <;> infer_instance

instance cancels_classMember (read : MembersRead) : (r.classMember read).Cancels := by
  unfold classMember
  apply cancels_then
  intro k
  split
  · infer_instance
  · infer_instance
  · apply cancels_then
    intro shape
    split <;> infer_instance

instance cancels_classMembers : r.classMembers.Cancels := by
  unfold classMembers
  infer_instance

instance cancels_aClass : r.aClass.Cancels := by
  unfold aClass
  dsimp only
  infer_instance

/-- By induction on the depth: the productions that are tied together refer to those of a smaller
    depth. -/
instance cancels_upTo (source : String) (package : Option String) (depth : Nat) :
    (upTo source package depth).Cancels := by
  induction depth with
  | zero => exact ⟨cancels_throw _, cancels_throw _, cancels_throw _, cancels_throw _⟩
  | succ depth ih =>
    exact ⟨cancels_expression _, cancels_operand _, cancels_aStatement _, cancels_aClass _⟩

end Rules

namespace Script

instance cancels_package (source : String) : (package source).Cancels := by
  unfold package
  refine cancels_then fun _ => cancels_then fun m => cancels_then fun start =>
    cancels_then ?_
  intro path
  cases path with
  | some path => infer_instance
  | none => infer_instance

instance cancels_importDecl (source : String) : (importDecl source).Cancels := by
  unfold importDecl
  dsimp only
  refine cancels_then fun m => cancels_then fun start => cancels_then fun _ =>
    cancels_then ?_
  intro path
  cases path with
  | some path => infer_instance
  | none => infer_instance

variable (r : Rules) [r.Cancels]

instance cancels_part (read : PartsRead) : (part r read).Cancels := by
  unfold part
  apply cancels_then
  intro k
  split <;> infer_instance

instance cancels_parts : (parts r).Cancels := by
  unfold parts
  infer_instance

instance cancels_script (source : String) : (script source).Cancels := by
  unfold script allocFrom
  apply cancels_then
  intro m
  apply cancels_then
  intro start
  extract_lets undeclared goOn
  have (declared : Option String) : (goOn () declared).Cancels := by
    refine @cancels_get_bind _ _ (fun s => ?_) fun _ _ => rfl
    dsimp only
    infer_instance
  infer_instance

end Script

/-- A parse of a script is cancelled if it asks for more markers than its limit, and else the parse
    without a limit. -/
theorem parseWith_spends {source : String} {tokens : List Token} {calls : Nat}
    (h : (Script.script source).Asks { draft := Draft.ofTokens tokens none } calls)
    (n : Option Nat) : parseWith (Script.script source) tokens n =
      (spendMarks calls n).bind fun _ => parseWith (Script.script source) tokens := by
  let s : ParseState := { draft := Draft.ofTokens tokens none }
  have hlimited (n : Option Nat) : parseWith (Script.script source) tokens n =
      ((Script.script source).run (s.limited n)).bind fun r =>
        r.2.draft.toTranscript.map fun t => ⟨r.1, r.2.ast, t⟩ := by
    unfold parseWith
    show ((Script.script source).run (s.limited n)).bind _ = _
    cases (Script.script source).run (s.limited n) with
    | error e => rfl
    | ok r =>
      show r.2.draft.toTranscript.bind _ = r.2.draft.toTranscript.map _
      cases r.2.draft.toTranscript with
      | error e => rfl
      | ok t => rfl
  rw [hlimited, hlimited, h n]
  cases spendMarks calls n with
  | error e => rfl
  | ok n' =>
    cases (Script.script source).run (s.limited none) with
    | error e => rfl
    | ok r => rfl

/-- A limit on the markers changes nothing about a parse of a script, unless it is cancelled. -/
theorem parseWith_limited (source : String) (tokens : List Token) (marksLeft : Option Nat) :
    parseWith (Script.script source) tokens marksLeft = .error .cancelled ∨
      parseWith (Script.script source) tokens marksLeft =
        parseWith (Script.script source) tokens := by
  obtain ⟨calls, hcalls⟩ := (Script.cancels_script source).run_limited
    { draft := Draft.ofTokens tokens none }
  rw [parseWith_spends hcalls]
  cases marksLeft with
  | none => exact .inr rfl
  | some n =>
    rw [spendMarks_some]
    split
    · exact .inl rfl
    · exact .inr rfl

end ScriptAnalysis

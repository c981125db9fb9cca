import ScriptAnalysis.Proofs.Grammar.Lookahead
import ScriptAnalysis.Proofs.Grammar.Outcome

/-!
# What names, types and variables leave behind

A name and a type are leaves: a marker with tokens in it and nothing else, or the place of a fault.
A variable is a statement around a declaration, and the type, the name and the sign before its
initial value stand in front of whatever else is in it.
-/

namespace ScriptAnalysis

open ParseState Production

/-- Some events record these nodes, and no name stands directly among them. -/
def ReadsSome (s : ParseState) (ns : List NodeId) (s' : ParseState) : Prop :=
  ∃ p, Reads s s' p ns ∧ Nameless s'.draft.marker p

theorem Reads.nameless_later {s s₁ s₂ : ParseState} {p : List Event} {ns : List NodeId}
    (h : Reads s s₁ p ns) (hp : Nameless s₁.draft.marker p) (k : Advances s₁ s₂) :
    Nameless s₂.draft.marker p :=
  hp.congr fun id hid => k.marker id (h.fresh id hid).2

namespace ReadsSome

variable {s s' s₁ s₂ s₃ : ParseState} {p : List Event} {ns ms : List NodeId} {m : MarkerId}

theorem trans (h : ReadsSome s₁ ns s₂) (k : ReadsSome s₂ ms s₃) :
    ReadsSome s₁ (ns ++ ms) s₃ := by
  obtain ⟨p, hp, hnp⟩ := h
  obtain ⟨q, hq, hnq⟩ := k
  exact ⟨p ++ q, hp.trans hq, (hp.nameless_later hnp hq.toAdvances).append hnq⟩

theorem refl (h : s.Fit) : ReadsSome s [] s := ⟨[], .refl h, .tokens []⟩

theorem fit (h : ReadsSome s ns s') : s'.Fit := by
  obtain ⟨p, hp, -⟩ := h
  exact hp.fit

theorem ast (h : ReadsSome s ns s') : s.ast.Extends s'.ast := by
  obtain ⟨p, hp, -⟩ := h
  exact hp.ast

theorem ahead (h : ReadsSome s ns s') : ∀ t ∈ s'.draft.ahead, t ∈ s.draft.ahead := by
  obtain ⟨p, hp, -⟩ := h
  rw [hp.ahead]
  exact fun t ht => List.mem_append_right _ ht

theorem of_tokens {ts : List Token} (h : Reads s s' (ts.map .token) ns) : ReadsSome s ns s' :=
  ⟨_, h, .tokens ts⟩

/-- A finished node hides the names in it. -/
theorem of_done (h : Reads s s' (.start m :: p ++ [.stop m]) ns)
    (hdone : (s'.draft.marker m).state = .done) (hname : (s'.draft.marker m).IsNoName)
    (hp : Balanced p) : ReadsSome s ns s' :=
  ⟨_, h, .whole hp hdone hname⟩

end ReadsSome

/-- Something that stays true of a node as the arena grows. -/
def Lasting (P : Ast → NodeId → Prop) : Prop := ∀ ast ast' n, ast.Extends ast' → P ast n → P ast' n

theorem lasting_isExpr : Lasting Ast.IsExpr := fun _ _ _ => Ast.Extends.isExpr

theorem lasting_isStmt : Lasting Ast.IsStmt := fun _ _ _ => Ast.Extends.isStmt

theorem lasting_isVar : Lasting Ast.IsVar := fun _ _ _ => Ast.Extends.isVar

/-- Some events record these nodes, and all of them are what they have to be. -/
structure ReadsAll (P : Ast → NodeId → Prop) (s : ParseState) (ns : List NodeId)
    (s' : ParseState) : Prop where
  reads : ReadsSome s ns s'
  all : ∀ n ∈ ns, P s'.ast n

namespace ReadsAll

variable {P : Ast → NodeId → Prop} {s s₁ s₂ s₃ : ParseState} {ns ms : List NodeId} {n : NodeId}

theorem fit (h : ReadsAll P s₁ ns s₂) : s₂.Fit := h.reads.fit

theorem none (h : ReadsSome s₁ [] s₂) : ReadsAll P s₁ [] s₂ := ⟨h, by simp⟩

theorem one (h : ReadsSome s₁ [n] s₂) (hn : P s₂.ast n) : ReadsAll P s₁ [n] s₂ :=
  ⟨h, by simpa using hn⟩

theorem trans (hP : Lasting P) (h : ReadsAll P s₁ ns s₂) (k : ReadsAll P s₂ ms s₃) :
    ReadsAll P s₁ (ns ++ ms) s₃ := by
  refine ⟨h.reads.trans k.reads, fun n hn => ?_⟩
  rcases List.mem_append.mp hn with hn | hn
  · exact hP _ _ _ k.reads.ast (h.all n hn)
  · exact k.all n hn

theorem before (h : ReadsAll P s₁ ns s₂) (k : ReadsSome s [] s₁) : ReadsAll P s ns s₂ :=
  ⟨k.trans h.reads, h.all⟩

theorem behind (hP : Lasting P) (h : ReadsAll P s₁ ns s₂) (k : ReadsSome s₂ [] s₃) :
    ReadsAll P s₁ ns s₃ := by
  simpa using h.trans hP (ReadsAll.none k)

end ReadsAll

/-- What stands inside a marker goes on with what is read next. -/
theorem Inside.reads {m : MarkerId} {s₀ s s' : ParseState} {p : List Event} {ns ms : List NodeId}
    (h : Inside m s₀ s p ns) (k : ReadsSome s ms s') : ∃ q, Inside m s₀ s' q (ns ++ ms) := by
  obtain ⟨q, hq, -⟩ := k
  exact ⟨p ++ q, h.trans hq⟩

theorem Inside.nameless {m : MarkerId} {s₀ s s' : ParseState} {ns : List NodeId}
    (h : Inside m s₀ s [] []) (k : ReadsSome s ns s') :
    ∃ q, Inside m s₀ s' q ns ∧ Nameless s'.draft.marker q := by
  obtain ⟨q, hq, hnq⟩ := k
  exact ⟨q, h.trans hq, hnq⟩

namespace Production

variable {α : Type} {s s₀ s' : ParseState} {m : MarkerId} {p : List Event} {ns : List NodeId}
  {n : NodeId} {data : NodeData}

theorem isNoName_of_none {m : Marker} (h : m.kind = none) : m.IsNoName := by
  intro kind hkind
  rw [h] at hkind
  cases hkind

theorem isNoName_of_means {m : Marker} (h : m.Means n data p)
    (hdata : ∀ text kind, data ≠ .name text kind) :
    m.IsNoName := by
  intro kind hkind
  rw [h.kind] at hkind
  cases data with
  | name text kind => exact absurd rfl (hdata text kind)
  | noop => cases hkind
  | type type =>
    cases type <;>
    · cases hkind
      rfl
  | _ =>
    cases hkind
    rfl

/-- A node that has its own marker is read with it. -/
theorem EndsNode.reads_some (h : EndsNode s₀ s s' m p n data)
    (hdata : ∀ text kind, data ≠ .name text kind) : ReadsSome s₀ [n] s' :=
  .of_done h.reads h.means.state (isNoName_of_means h.means hdata) h.balanced

/-! ### Faults -/

/-- A leaf was read: a marker with tokens, or a marker without a node that holds nothing. -/
structure ReadsLeaf (s s' : ParseState) (m : MarkerId) (ts : List Token) : Prop where
  reads : Reads s s' (leafEvents m ts) []
  solid : (s'.draft.marker m).kind ≠ none →
    firstOffset (leafEvents m ts) ≠ none ∧ s.draft.current.offset < s'.lastEnd

theorem ReadsLeaf.reads_some {ts : List Token} (h : ReadsLeaf s s' m ts)
    (hm : (s'.draft.marker m).IsNoName) : ReadsSome s [] s' := ⟨_, h.reads, .leaf ts hm⟩

theorem ReadsToken.reads_some (h : ReadsToken s s' p) : ReadsSome s [] s' := by
  obtain ⟨ts, rfl⟩ := h.tokens
  exact .of_tokens h.reads

theorem advance_reads (h : s.Fit) : advance.Ensures s fun _ s' => ReadsSome s [] s' := by
  obtain ⟨ts, hreads, -⟩ := reads_advance h
  exact ensures_modify.mpr (.of_tokens hreads)

theorem accept_reads {k : TokenKind} (h : s.Fit) (hk : k ≠ .eof) :
    (accept k).Ensures s fun _ s' => ReadsSome s [] s' := by
  refine (accept_ensures h hk).mono fun found s' hs' => ?_
  rcases hs' with ⟨-, p, hp⟩ | ⟨-, rfl⟩
  · exact hp.reads_some
  · exact .refl h

theorem report_reads (hw : Inside m s₀ s p ns) (hp : Nameless s.draft.marker p) (message : String)
    (span : Span) : (report m message span).Ensures s fun _ s' => ReadsSome s₀ ns s' := by
  refine ensures_record.mpr fun d hd => ?_
  obtain ⟨hc, hnode, hkind⟩ := Draft.closeError_closes hw.new.2 hd
  have hkind := hkind.trans hw.kind
  refine ⟨_, hw.ends_hidden hc hnode (by simp [hkind]), ?_⟩
  exact (hp.congr fun id hid => hc.marker id (hw.ne hid)).wrap (isNoName_of_none hkind)

theorem reportHere_ensures (hw : Inside m s₀ s p ns) (source what : String) :
    (reportHere source m what).Ensures s fun _ s' => EndsHidden s₀ s s' m p ns ∧
      (s'.draft.marker m).kind = none := by
  unfold reportHere
  simp only [ensures_bind, ensures_current]
  exact report_ensures hw _ _

theorem reportHere_reads (hw : Inside m s₀ s p ns) (hp : Nameless s.draft.marker p)
    (source what : String) : (reportHere source m what).Ensures s fun _ s' =>
      ReadsSome s₀ ns s' := by
  unfold reportHere
  simp only [ensures_bind, ensures_current]
  exact report_reads hw hp _ _

/-- A token is consumed if it is of the kind expected; otherwise its absence is reported. -/
theorem expect_ensures {k : TokenKind} (h : s.Fit) (hk : k ≠ .eof) (source what : String) :
    (expect source k what).Ensures s fun found s' =>
      (found = true ∧ s.draft.current.kind = k ∧ ∃ p, ReadsNext s s' p) ∨
      (found = false ∧ ∃ m, ReadsLeaf s s' m [] ∧ (s'.draft.marker m).kind = none) := by
  unfold expect accept
  simp only [ensures_bind, ensures_at?]
  split
  · next hat =>
    have hcur : s.draft.current.kind = k := by simpa [Draft.at?] using hat
    rw [ensures_bind]
    refine (advance_ensures h (hcur ▸ hk)).mono fun _ s₁ hs₁ => ?_
    obtain ⟨p, hp, -, -⟩ := hs₁
    simp only [ensures_pure, if_true]
    exact .inl ⟨trivial, hcur, p, hp⟩
  · simp only [ensures_pure, Bool.false_eq_true, if_false, ensures_bind]
    refine (openMarker_ensures h).mono fun m s₁ hs₁ => ?_
    refine (reportHere_ensures hs₁.1 _ _).mono fun _ s₂ hs₂ => ?_
    refine .inr ⟨trivial, m, ⟨hs₂.1.reads, fun hkind => absurd hs₂.2 hkind⟩, hs₂.2⟩

theorem expect_reads {k : TokenKind} (h : s.Fit) (hk : k ≠ .eof) (source what : String) :
    (expect source k what).Ensures s fun _ s' => ReadsSome s [] s' := by
  refine (expect_ensures h hk source what).mono fun found s' hs' => ?_
  rcases hs' with ⟨-, -, p, hp⟩ | ⟨-, m, hm, hkind⟩
  · exact hp.reads_some
  · exact hm.reads_some (isNoName_of_none hkind)

theorem skipUnexpected_reads (h : s.Fit) (source what : String) :
    (skipUnexpected source what).Ensures s fun _ s' => ReadsSome s [] s' := by
  unfold skipUnexpected
  simp only [ensures_bind, ensures_current]
  refine (openMarker_ensures h).mono fun m s₁ hs₁ => ?_
  split
  · rw [ensures_bind]
    refine (advance_reads hs₁.1.fit).mono fun _ s₂ hs₂ => ?_
    obtain ⟨q, hq, hnq⟩ := hs₁.1.nameless hs₂
    exact report_reads hq hnq _ _
  · exact report_reads hs₁.1 (.tokens []) _ _

theorem skipIfStuck_reads (h : s.Fit) (before : Token) :
    (skipIfStuck before).Ensures s fun _ s' => ReadsSome s [] s' := by
  unfold skipIfStuck
  simp only [ensures_bind, ensures_current]
  split
  · exact advance_reads h
  · exact ensures_pure.mpr (.refl h)

/-- Items between commas are recorded one after the other.  What holds before the first item and
    behind any token holds before each item. -/
theorem separated_reads {item : Production NodeId} {P : Ast → NodeId → Prop}
    {I : ParseState → Prop} (h : s.Fit) (hI : I s) (hP : Lasting P)
    (hbehind : ∀ s' : ParseState, BehindToken s'.draft.history → I s')
    (hitem : ∀ s', s'.Fit → I s' → item.Ensures s' fun n s'' => ReadsAll P s' [n] s'') :
    (separated item).Ensures s fun ns s' => ReadsAll P s ns s' := by
  unfold separated
  refine repeatFrom_ensures (fun read s' => ReadsAll P s read.reverse s' ∧ I s')
    ⟨.none (.refl h), hI⟩ ?_
  rintro read s₁ ⟨hread, hI⟩
  simp only [ensures_bind]
  refine (hitem s₁ hread.fit hI).mono fun n s₂ hn => ?_
  refine (accept_ensures hn.fit (by decide)).mono fun found s₃ hs₃ => ?_
  have hnext : ReadsAll P s (n :: read).reverse s₂ := by
    rw [List.reverse_cons]
    exact hread.trans hP hn
  rcases hs₃ with ⟨rfl, p, hp⟩ | ⟨rfl, rfl⟩
  · exact ensures_pure.mpr ⟨hnext.behind hP hp.reads_some, hbehind s₃ hp.behind⟩
  · exact ensures_pure.mpr hnext

end Production

/-- Where identifiers stand among these tokens, the text is not empty. -/
def Rules.Spells (r : Rules) (ahead : List Token) : Prop :=
  ∀ t ∈ ahead, t.kind = .ident → r.text t ≠ ""

/-- What the productions that refer to each other in a circle leave behind. -/
structure Rules.Records (r : Rules) : Prop where
  expr : ∀ s : ParseState, s.Fit → r.expr.Ensures s fun e s' =>
    ∃ p, ReadsExpr s e.marker e.node s' p
  unary : ∀ s : ParseState, s.Fit → r.unary.Ensures s fun e s' =>
    ∃ p, ReadsExpr s e.marker e.node s' p
  statement : ∀ s : ParseState, s.Fit → r.statement.Ensures s fun stmt s' =>
    ReadsAll Ast.IsStmt s stmt.toList s'
  classDecl : ∀ s : ParseState, s.Fit → r.Spells s.draft.ahead → r.classDecl.Ensures s fun n s' =>
    ReadsSome s [n] s' ∧ s'.ast.IsClass n

/-- The next token is one of those ahead, unless none is left that is no trivia. -/
theorem Draft.current_mem (d : Draft) (h : d.current.kind ≠ .eof) : d.current ∈ d.ahead := by
  rcases d.current_cases with ⟨blank, rest, hahead, -, -⟩ | ⟨-, hcur⟩
  · rw [hahead]
    simp
  · rw [hcur] at h
    exact absurd rfl h

theorem startsVar_iff {d : Draft} : StartsVar d.ahead ↔
    d.current.kind = .ident ∨ d.current.kind.isTypeKeyword = true := by
  unfold StartsVar Draft.current Draft.lookahead
  cases nthSignificant d.ahead 0 with
  | none => simp [TokenKind.isTypeKeyword]
  | some t => simp

namespace Rules

variable {r : Rules} {s s' : ParseState}

theorem Spells.later {ns : List NodeId} (hr : r.Spells s.draft.ahead) (h : ReadsSome s ns s') :
    r.Spells s'.draft.ahead := fun t ht => hr t (h.ahead t ht)

theorem Records.expr_reads (hr : r.Records) (h : s.Fit) :
    (Parsed.node <$> r.expr).Ensures s fun n s' => ReadsAll Ast.IsExpr s [n] s' := by
  rw [ensures_map]
  refine (hr.expr s h).mono fun e s' he => ?_
  obtain ⟨p, hp⟩ := he
  exact .one ⟨_, hp.reads, hp.nameless⟩ hp.expr

/-! ### Names and types -/

/-- A path is read up to the place where a look ahead ends it. -/
theorem dottedPath_ensures (h : s.Fit) (source : String) :
    (dottedPath source).Ensures s fun path s' =>
      (path ≠ none ∧ s.draft.current.kind = .ident ∧
        s'.draft.kindsAhead = pathRest s.draft.kindsAhead.tail ∧ ∃ p, ReadsToken s s' p) ∨
        (path = none ∧ s' = s ∧ s.draft.current.kind ≠ .ident) := by
  unfold dottedPath
  simp only [ensures_bind, ensures_current]
  split
  · next hident => exact ensures_pure.mpr (.inr ⟨rfl, rfl, hident⟩)
  · next hident =>
    have hident := not_not.mp hident
    have hk : s.draft.current.kind ≠ .eof := by
      rw [hident]
      decide
    rw [ensures_bind]
    refine (advance_ensures h hk).mono fun _ s₁ hs₁ => ?_
    obtain ⟨p, hp, -, -, hdraft⟩ := hs₁
    simp only [ensures_bind]
    -- What a path still takes of the kinds ahead stays the same while it is read.
    refine repeatFrom_ensures (fun _ s' =>
      pathRest s'.draft.kindsAhead = pathRest s.draft.kindsAhead.tail ∧ ∃ p, ReadsToken s s' p)
      ⟨by rw [hdraft, Draft.kindsAhead_advance], p, hp.toReadsToken⟩ ?_
    rintro path s₂ ⟨hrest, p, hp⟩
    have hdot : s₂.draft.kindsAhead[0]? = some .dot ↔ s₂.draft.at? .dot = true := by
      rw [Draft.getElem?_kindsAhead (by decide)]
      simp [Draft.at?, Draft.current]
    have hnext : s₂.draft.kindsAhead[1]? = some .ident ↔
        ((s₂.draft.lookahead 1).kind == .ident) = true := by
      rw [Draft.getElem?_kindsAhead (by decide), beq_iff_eq]
    simp only [ensures_bind, ensures_at?, ensures_kindAfter]
    split
    · next hcontinues =>
      rw [Bool.and_eq_true, ← hdot, ← hnext] at hcontinues
      simp only [ensures_bind, ensures_current]
      obtain ⟨ts, rfl⟩ := hp.tokens
      obtain ⟨ts₁, hadv₁, -⟩ := reads_advance hp.reads.fit
      refine ensures_modify.mpr ?_
      obtain ⟨ts₂, hadv₂, -⟩ := reads_advance hadv₁.fit
      refine ensures_modify.mpr (ensures_pure.mpr ?_)
      have hreads := (hp.reads.trans hadv₁).trans hadv₂
      refine ⟨?_, _, ⟨hreads, ⟨(ts ++ ts₁) ++ ts₂, by simp⟩, ?_, ?_⟩⟩
      · rw [← hrest, pathRest_of_continues hcontinues.1 hcontinues.2]
        dsimp only
        rw [Draft.kindsAhead_advance, Draft.kindsAhead_advance]
      · rw [firstOffset_append, firstOffset_append]
        intro hnone
        exact hp.significant (Option.or_eq_none_iff.mp (Option.or_eq_none_iff.mp hnone).1).1
      · exact Nat.lt_of_lt_of_le hp.lt_lastEnd
          (hadv₁.trans hadv₂).recorded.precedes.text
    · next hends =>
      rw [Bool.and_eq_true, ← hdot, ← hnext] at hends
      rw [pathRest_of_ends hends] at hrest
      exact ensures_pure.mpr (ensures_pure.mpr (.inl ⟨by simp, hident, hrest, p, hp⟩))

/-- A type is a leaf, and has its marker wherever a variable may start.  It takes what a look ahead
    takes for a type. -/
structure ReadsType (s s' : ParseState) (m : MarkerId) (ts : List Token) : Prop where
  leaf : ReadsLeaf s s' m ts
  kind : (s'.draft.marker m).kind = none ∨ (s'.draft.marker m).kind = some .classType ∨
    (s'.draft.marker m).kind = some .builtinType
  held : StartsVar s.draft.ahead → (s'.draft.marker m).kind ≠ none
  rest : ∀ kinds, typeRest? s.draft.kindsAhead = some kinds → s'.draft.kindsAhead = kinds

theorem ReadsType.isNoName {m : MarkerId} {ts : List Token} (h : ReadsType s s' m ts) :
    (s'.draft.marker m).IsNoName := by
  intro kind hkind
  rcases h.kind with hm | hm | hm
  · rw [hm] at hkind
    cases hkind
  · rw [hm] at hkind
    cases hkind
    rfl
  · rw [hm] at hkind
    cases hkind
    rfl

theorem ReadsType.reads_some {m : MarkerId} {ts : List Token} (h : ReadsType s s' m ts) :
    ReadsSome s [] s' := h.leaf.reads_some h.isNoName

theorem finish_type_ensures {s₁ s₂ : ParseState} {m : MarkerId} {p : List Event} {start : Nat}
    {type : TypeRef} (hw : Inside m s s₁ [] []) (hcur : s₁.draft.current = s.draft.current)
    (hp : ReadsToken s₁ s₂ p) (hrest : typeRest? s.draft.kindsAhead = some s₂.draft.kindsAhead) :
    (finish m start (.type type)).Ensures s₂ fun _ s' => ∃ m ts, ReadsType s s' m ts := by
  refine (finish_leaf_ensures (hw.trans hp.reads) rfl hp.tokens hp.significant).mono
    fun n s₃ hs₃ => ?_
  obtain ⟨⟨ts, rfl, hreads, hmeans⟩, -, hlast, hahead⟩ := hs₃
  have hkind : (s₃.draft.marker m).kind = some .classType ∨
      (s₃.draft.marker m).kind = some .builtinType := by
    rw [hmeans.kind]
    cases type with
    | named path => exact .inl rfl
    | _ => exact .inr rfl
  refine ⟨m, ts, ⟨hreads, fun _ => ⟨?_, ?_⟩⟩, .inr hkind, fun _ => ?_, fun kinds hkinds => ?_⟩
  · rw [firstOffset_leafEvents]
    exact hp.significant
  · rw [hlast, ← hcur]
    exact hp.lt_lastEnd
  · rcases hkind with hkind | hkind <;> simp [hkind]
  · unfold Draft.kindsAhead
    rw [hahead]
    exact Option.some.inj (hrest.symm.trans hkinds)

theorem keywordType?_isSome {kind : TokenKind} :
    (keywordType? kind).isSome = kind.isTypeKeyword := by
  cases kind <;> rfl

theorem type_ensures (h : s.Fit) :
    r.type.Ensures s fun _ s' => ∃ m ts, ReadsType s s' m ts := by
  unfold type
  simp only [ensures_bind, ensures_here, ensures_kind]
  refine (openMarker_ensures h).mono fun m s₁ hs₁ => ?_
  obtain ⟨hw, hcur, -⟩ := hs₁
  have hahead : s₁.draft.kindsAhead = s.draft.kindsAhead := by
    unfold Draft.kindsAhead
    rw [hw.ahead]
    rfl
  have hrest := Draft.typeRest?_kindsAhead s₁.draft
  rw [← keywordType?_isSome] at hrest
  split
  · next declared hdeclared =>
    have hk : s₁.draft.current.kind ≠ .eof := by
      intro heof
      rw [heof] at hdeclared
      cases hdeclared
    simp only [ensures_bind, ensures_pure]
    refine (advance_ensures hw.fit hk).mono fun _ s₂ hs₂ => ?_
    obtain ⟨p, hp, -, -, hdraft⟩ := hs₂
    refine finish_type_ensures hw hcur hp.toReadsToken ?_
    rw [← hahead, hrest, hdeclared, hdraft, Draft.kindsAhead_advance]
    rfl
  · next hnone =>
    rw [hnone, Option.isSome_none, if_neg Bool.false_ne_true] at hrest
    simp only [ensures_bind]
    refine (dottedPath_ensures hw.fit _).mono fun path s₂ hs₂ => ?_
    cases path with
    | none =>
      simp only [ensures_bind, ensures_pure]
      rcases hs₂ with ⟨hpath, -⟩ | ⟨-, rfl, hident⟩
      · exact absurd rfl hpath
      · refine (reportHere_ensures hw _ _).mono fun _ s₃ hs₃ => ?_
        refine ⟨m, [], ⟨hs₃.1.reads, fun hkind => absurd hs₃.2 hkind⟩, .inl hs₃.2,
          fun hstarts => ?_, fun kinds hkinds => ?_⟩
        · rcases startsVar_iff.mp hstarts with hident' | hkeyword
          · rw [hcur] at hident
            exact absurd hident' hident
          · rw [← hcur, ← keywordType?_isSome, hnone] at hkeyword
            cases hkeyword
        · rw [← hahead, hrest, if_neg hident] at hkinds
          cases hkinds
    | some path =>
      simp only [ensures_bind, ensures_pure]
      rcases hs₂ with ⟨-, hident, hpath, p, hp⟩ | ⟨hpath, -⟩
      · refine finish_type_ensures hw hcur hp ?_
        rw [← hahead, hrest, if_pos hident, hpath]
      · cases hpath

/-- A name is a leaf, and has its marker unless it is missing. -/
structure ReadsName (s s' : ParseState) (name : String) (nameKind : NameKind) (m : MarkerId)
    (ts : List Token) : Prop where
  leaf : ReadsLeaf s s' m ts
  found : (s.draft.current.kind ≠ .ident ∧ name = "" ∧ (s'.draft.marker m).kind = none) ∨
    (s.draft.current.kind = .ident ∧ firstOffset (ts.map .token) = some s.draft.current.offset ∧
      ∃ n, s'.ast.data? n = some (.name name nameKind) ∧
        (s'.draft.marker m).Means n (.name name nameKind) (ts.map .token))

namespace ReadsName

variable {name : String} {nameKind : NameKind} {m : MarkerId} {ts : List Token}

theorem kind (h : ReadsName s s' name nameKind m ts) : (s'.draft.marker m).kind = none ∨
    (s'.draft.marker m).kind = some (.ofName nameKind) := by
  rcases h.found with ⟨-, -, hkind⟩ | ⟨-, -, n, -, hmeans⟩
  · exact .inl hkind
  · exact .inr hmeans.kind

theorem solid (h : ReadsName s s' name nameKind m ts)
    (hname : name ≠ "" ∨ s.draft.current.kind = .ident) :
    firstOffset (leafEvents m ts) ≠ none ∧ s.draft.current.offset < s'.lastEnd := by
  rcases h.found with ⟨hident, hempty, -⟩ | ⟨-, -, n, -, hmeans⟩
  · rcases hname with hname | hname
    · exact absurd hempty hname
    · exact absurd hname hident
  · exact h.leaf.solid (by rw [hmeans.kind]; exact hmeans.known)

end ReadsName

theorem name_ensures (h : s.Fit) (nameKind : NameKind) : (r.name nameKind).Ensures s fun found s' =>
    (s.draft.current.kind = .ident →
      found = (r.text s.draft.current, s.draft.current.offset)) ∧
      ∃ m ts, ReadsName s s' found.1 nameKind m ts := by
  unfold name
  simp only [ensures_bind, ensures_current]
  split
  · next hident =>
    rw [ensures_bind]
    refine (expect_ensures h (by decide) _ _).mono fun found s₁ hs₁ => ?_
    rcases hs₁ with ⟨-, hcur, -⟩ | ⟨-, m, hm, hkind⟩
    · exact absurd hcur hident
    · exact ensures_pure.mpr ⟨fun hcur => absurd hcur hident, m, [], hm, .inl ⟨hident, rfl, hkind⟩⟩
  · next hident =>
    have hident := not_not.mp hident
    simp only [ensures_bind]
    refine (openMarker_ensures h).mono fun m s₁ hs₁ => ?_
    obtain ⟨hw, hcur, -⟩ := hs₁
    have hk : s₁.draft.current.kind ≠ .eof := by
      rw [hcur, hident]
      decide
    refine (advance_ensures hw.fit hk).mono fun _ s₂ hs₂ => ?_
    obtain ⟨p, hp, -, -⟩ := hs₂
    rw [ensures_alloc]
    refine (close_leaf_ensures (hw.trans hp.reads) rfl hp.tokens hp.significant).mono
      fun _ s₃ hs₃ => ?_
    obtain ⟨⟨ts, rfl, hreads, hmeans⟩, hdata, hlast, -⟩ := hs₃
    refine ensures_pure.mpr ⟨fun _ => rfl, m, ts, ⟨hreads, fun _ => ⟨?_, ?_⟩⟩,
      .inr ⟨hident, by rw [hp.first, hcur], _, hdata, hmeans⟩⟩
    · rw [firstOffset_leafEvents]
      exact hp.significant
    · rw [hlast, ← hcur]
      exact hp.lt_lastEnd

/-! ### Variables -/

/-- None of the markers that start among the events stands for a statement that declares a
    variable. -/
def NoVar (mk : MarkerId → Marker) (p : List Event) : Prop :=
  ∀ j, .start j ∈ p → (mk j).kind ≠ some .varDecl

theorem start_mem_leafEvents {j m : MarkerId} {ts : List Token}
    (h : .start j ∈ leafEvents m ts) : j = m := by
  simpa [leafEvents] using h

theorem ReadsType.noVar {m : MarkerId} {ts : List Token} (h : ReadsType s s' m ts) :
    NoVar s'.draft.marker (leafEvents m ts) := by
  intro j hj
  rw [start_mem_leafEvents hj]
  rcases h.kind with hkind | hkind | hkind <;> rw [hkind] <;> decide

theorem ReadsName.noVar {name : String} {nameKind : NameKind} {m : MarkerId} {ts : List Token}
    (h : ReadsName s s' name nameKind m ts) : NoVar s'.draft.marker (leafEvents m ts) := by
  intro j hj
  rw [start_mem_leafEvents hj]
  rcases h.kind with hkind | hkind
  · rw [hkind]
    decide
  · rw [hkind]
    cases nameKind <;> decide

theorem NoVar.later {s s' : ParseState} {p : List Event} {ns : List NodeId} {s₀ : ParseState}
    (h : NoVar s.draft.marker p) (hp : Reads s₀ s p ns) (k : Advances s s') :
    NoVar s'.draft.marker p := by
  intro j hj
  rw [k.marker j (hp.fresh j hj).2]
  exact h j hj

/-- The type and the name of a variable. -/
structure ReadsVarHead (s s' : ParseState) (p : List Event) (name : String) : Prop where
  reads : Reads s s' p []
  solid : name ≠ "" → firstOffset p ≠ none ∧ s.draft.current.offset < s'.lastEnd
  held : StartsVar s.draft.ahead → firstOffset p ≠ none
  noVar : NoVar s'.draft.marker p

/-- What stands in the marker of a variable. -/
structure ReadsVarParts (s s' : ParseState) (p : List Event) (v : VarDecl) : Prop where
  reads : Reads s s' p v.init.toList
  solid : (NodeData.varDeclExpr v).isSolid = true →
    firstOffset p ≠ none ∧ s.draft.current.offset < s'.lastEnd
  held : StartsVar s.draft.ahead → firstOffset p ≠ none
  noVar : NoVar s'.draft.marker (overture p)
  init : ∀ n ∈ v.init, s'.ast.IsExpr n

/-- The name stands behind the type, if there is one. -/
theorem ReadsName.varHead {s₁ s₂ s₃ : ParseState} {p : List Event} {m : MarkerId}
    {ts : List Token} {name : String} {nameKind : NameKind}
    (hname : ReadsName s₂ s₃ name nameKind m ts) (hp : Reads s₁ s₂ p [])
    (hnoVar : NoVar s₂.draft.marker p)
    (hheld : StartsVar s₁.draft.ahead → firstOffset p ≠ none ∨ s₂.draft.current.kind = .ident) :
    ReadsVarHead s₁ s₃ (p ++ leafEvents m ts) name := by
  have hleaf := hname.leaf.reads
  have hbehind (hsolid : name ≠ "" ∨ s₂.draft.current.kind = .ident) :
      firstOffset (p ++ leafEvents m ts) ≠ none := by
    rw [firstOffset_append]
    exact fun hnone => (hname.solid hsolid).1 (Option.or_eq_none_iff.mp hnone).2
  refine ⟨hp.trans hleaf, fun hne => ⟨hbehind (.inl hne), ?_⟩, fun hstarts => ?_, fun j hj => ?_⟩
  · exact Nat.lt_of_le_of_lt hp.here (hname.solid (.inl hne)).2
  · rcases hheld hstarts with hoffset | hident
    · rw [firstOffset_append]
      exact fun hnone => hoffset (Option.or_eq_none_iff.mp hnone).1
    · exact hbehind (.inr hident)
  · rcases List.mem_append.mp hj with hj | hj
    · exact hnoVar.later hp hleaf.toAdvances j hj
    · exact hname.noVar j hj

namespace ReadsVarHead

variable {s₁ s₃ s₄ s₅ : ParseState} {p q e : List Event} {v : VarDecl} {n : NodeId}

theorem parts (h : ReadsVarHead s₁ s₃ p v.name) (hinit : v.init = none) :
    ReadsVarParts s₁ s₃ p v := by
  refine ⟨by rw [hinit]; exact h.reads, fun hsolid => h.solid ?_, h.held, fun j hj => ?_,
    by simp [hinit]⟩
  · intro hempty
    simp [NodeData.isSolid, hinit, hempty] at hsolid
  · exact h.noVar j (overture_subset p hj)

/-- The initial value stands behind a sign, so nothing in it is in front of the first token. -/
theorem parts_init (h : ReadsVarHead s₁ s₃ p v.name) (hq : ReadsToken s₃ s₄ q)
    (he : Reads s₄ s₅ e [n]) (hn : s₅.ast.IsExpr n) (hinit : v.init = some n) :
    ReadsVarParts s₁ s₅ (p ++ q ++ e) v := by
  have hpq := h.reads.trans hq.reads
  have hoffset : firstOffset (p ++ q) ≠ none := by
    rw [firstOffset_append]
    exact fun hnone => hq.significant (Option.or_eq_none_iff.mp hnone).2
  have hall : firstOffset (p ++ q ++ e) ≠ none := by
    rw [firstOffset_append]
    exact fun hnone => hoffset (Option.or_eq_none_iff.mp hnone).1
  refine ⟨by rw [hinit]; exact hpq.trans he, fun _ => ⟨hall, ?_⟩, fun _ => hall, fun j hj => ?_,
    by simpa [hinit] using hn⟩
  · have h₁ := h.reads.here
    have h₂ := hq.lt_lastEnd
    have h₃ : s₄.lastEnd ≤ s₅.lastEnd := he.recorded.precedes.text
    omega
  · rw [overture_append_of_offset hoffset] at hj
    rcases List.mem_append.mp (overture_subset _ hj) with hmem | hmem
    · exact h.noVar.later h.reads (hq.reads.trans he).toAdvances j hmem
    · obtain ⟨ts, rfl⟩ := hq.tokens
      simp at hmem

end ReadsVarHead

/-- The declaration is allocated after its parts, and the statement around it ends their marker. -/
theorem close_var_ensures {s₀ s₁ s₅ : ParseState} {m : MarkerId} {p : List Event} {v : VarDecl}
    (h : s₀.Fit) (hled : StartsVar s₀.draft.ahead ∨ BehindToken s₀.draft.history)
    (hw : Inside m s₀ s₁ [] []) (hcur : s₁.draft.current = s₀.draft.current)
    (hparts : ReadsVarParts s₁ s₅ p v) {span : Span}
    (hspan : span = ⟨s₁.draft.current.offset, max s₅.lastEnd s₁.draft.current.offset⟩) :
    (close m (s₅.allocated (.varDeclExpr v) span).ast.size).Ensures
      ((s₅.allocated (.varDeclExpr v) span).allocated (.varDecl s₅.ast.size) span) fun _ s' =>
      ReadsSome s₀ [(s₅.allocated (.varDeclExpr v) span).ast.size] s' ∧
        s'.ast.IsVar (s₅.allocated (.varDeclExpr v) span).ast.size := by
  have hspans : Spans s₀ s₅ (.varDeclExpr v) span := by
    intro hsolid
    have hlt := (hparts.solid hsolid).2
    have hle := h.lastEnd_le
    rw [hcur] at hspan hlt
    subst hspan
    dsimp only
    omega
  have hin : Inside m s₀ s₅ p ([] ++ (NodeData.varDeclExpr v).parts) := hw.trans hparts.reads
  have hbare : Inside m s₀ (s₅.allocated (.varDeclExpr v) span) p [s₅.ast.size] :=
    hin.bare rfl (fun _ => rfl) hparts.init hspans
  have hdecl := s₅.data?_allocated (.varDeclExpr v) span
  have hahead : s₁.draft.ahead = s₀.draft.ahead := hw.ahead.symm
  refine Ensures.mono (close_ensures hbare hbare.recorded.laid (.refl _) (by simp) rfl
    (by simp [NodeKind.of?]) ⟨v, hdecl⟩ (fun hsolid => by cases hsolid) ?_ (by simp) ?_ ?_)
    fun _ s' hs' => ?_
  · intro decl hdata
    cases hdata
    exact s₅.span_allocated _ span
  · exact fun _ _ => ⟨fun hstarts => hparts.held (hahead ▸ hstarts), hled⟩
  · intro mk hmk _
    refine ⟨fun j hj => ?_, fun v' hv' => ?_, fun j hj => ?_⟩
    · rw [hmk j (hin.ne hj)]
      exact hin.recorded.unmarked j hj
    · rw [(extends_allocated _ _ span).same hdecl (by simp)] at hv'
      cases hv'
      exact fun hsolid => (hparts.solid hsolid).1
    · rw [hmk j (hin.ne (overture_subset p hj))]
      exact hparts.noVar j hj
  · exact ⟨hs'.reads_some (by simp), _, v, hs'.found, hs'.ast.same hdecl (by simp)⟩

/-- A variable that goes without a type starts with its name. -/
theorem varDecl_ensures (hr : r.Records) (h : s.Fit) (role : VarRole) (typed : Bool)
    (hled : StartsVar s.draft.ahead ∨ BehindToken s.draft.history)
    (huntyped : typed = false → s.draft.current.kind = .ident) :
    (r.varDecl role typed).Ensures s fun n s' => ReadsSome s [n] s' ∧ s'.ast.IsVar n := by
  unfold varDecl
  simp only [ensures_bind, ensures_here]
  refine (openMarker_ensures h).mono fun m s₁ hs₁ => ?_
  obtain ⟨hw, hcur, -⟩ := hs₁
  have htype : (if typed = true then r.type else pure .any : Production TypeRef).Ensures s₁
      fun _ s₂ => ∃ p, Reads s₁ s₂ p [] ∧ NoVar s₂.draft.marker p ∧
        (StartsVar s₁.draft.ahead → firstOffset p ≠ none ∨ s₂.draft.current.kind = .ident) := by
    split
    · refine (type_ensures hw.fit).mono fun _ s₂ hs₂ => ?_
      obtain ⟨j, ts, htype⟩ := hs₂
      exact ⟨_, htype.leaf.reads, htype.noVar,
        fun hstarts => .inl (htype.leaf.solid (htype.held hstarts)).1⟩
    · next htyped =>
      refine ensures_pure.mpr ⟨[], .refl hw.fit, fun j hj => by simp at hj, fun _ => .inr ?_⟩
      rw [hcur]
      exact huntyped (Bool.eq_false_iff.mpr htyped)
  simp only [ite_bind, ensures_bind]
  refine htype.mono fun declared s₂ hs₂ => ?_
  obtain ⟨p, hp, hnoVar, hheld⟩ := hs₂
  refine (name_ensures hp.fit role.nameKind).mono fun found s₃ hs₃ => ?_
  obtain ⟨-, j, ts, hname⟩ := hs₃
  have hhead := hname.varHead hp hnoVar hheld
  refine (accept_ensures hhead.reads.fit (by decide)).mono fun equal s₄ hs₄ => ?_
  have hinit : (if equal = true then some <$> Parsed.node <$> r.expr else pure none :
      Production (Option NodeId)).Ensures s₄ fun init s₅ => ∃ q,
        ReadsVarParts s₁ s₅ q ⟨found.1, found.2, declared, init, role⟩ := by
    rcases hs₄ with ⟨rfl, q, hq⟩ | ⟨rfl, rfl⟩
    · simp only [if_true, ensures_map]
      refine (hr.expr s₄ hq.reads.fit).mono fun e s₅ he => ?_
      obtain ⟨w, hw⟩ := he
      exact ⟨_, hhead.parts_init hq.toReadsToken hw.reads hw.expr rfl⟩
    · simp only [Bool.false_eq_true, if_false, ensures_pure]
      exact ⟨_, hhead.parts rfl⟩
  refine hinit.mono fun init s₅ hs₅ => ?_
  obtain ⟨q, hparts⟩ := hs₅
  simp only [ensures_spanFrom, ensures_alloc, ensures_pure]
  exact close_var_ensures h hled hw hcur hparts rfl

theorem param_ensures (hr : r.Records) (h : s.Fit)
    (hled : StartsVar s.draft.ahead ∨ BehindToken s.draft.history) :
    r.param.Ensures s fun n s' => ReadsSome s [n] s' ∧ s'.ast.IsVar n := by
  unfold param
  simp only [ensures_bind, ensures_kindAfter, ensures_at?]
  refine varDecl_ensures hr h _ _ hled fun huntyped => ?_
  rw [Bool.not_eq_false', Bool.and_eq_true] at huntyped
  simpa [Draft.at?] using huntyped.1

theorem separated_param_ensures (hr : r.Records) (h : s.Fit)
    (hled : StartsVar s.draft.ahead ∨ BehindToken s.draft.history) :
    (separated r.param).Ensures s fun ns s' => ReadsAll Ast.IsVar s ns s' :=
  separated_reads (I := fun s => StartsVar s.draft.ahead ∨ BehindToken s.draft.history) h hled
    lasting_isVar (fun _ => .inr) fun _ hs' hled' =>
      (param_ensures hr hs' hled').mono fun _ _ hn => .one hn.1 hn.2

/-- A group around some nodes leaves them as they are. -/
theorem closeGroup_reads {P : Ast → NodeId → Prop} {m : MarkerId} {s₁ s₂ : ParseState}
    {ns : List NodeId} (hw : Inside m s s₁ [] []) (hns : ReadsAll P s₁ ns s₂) :
    (closeGroup m).Ensures s₂ fun _ s' => ReadsAll P s ns s' := by
  obtain ⟨q, hq⟩ := hw.reads hns.reads
  refine (closeGroup_ensures hq).mono fun _ s₃ hs₃ => ?_
  obtain ⟨hhidden, hdone, hkind⟩ := hs₃
  refine ⟨.of_done hhidden.reads hdone ?_ hq.recorded.balanced, ?_⟩
  · intro kind hgroup
    rw [hkind] at hgroup
    cases hgroup
    rfl
  · rw [hhidden.ast]
    exact hns.all

theorem params_ensures (hr : r.Records) (h : s.Fit) :
    r.params.Ensures s fun ns s' => ReadsAll Ast.IsVar s ns s' := by
  unfold params
  simp only [ensures_bind]
  refine (openMarker_ensures h).mono fun m s₁ hs₁ => ?_
  have hw := hs₁.1
  refine (expect_ensures hw.fit (by decide) _ _).mono fun found s₂ hs₂ => ?_
  rcases hs₂ with ⟨rfl, -, p, hp⟩ | ⟨rfl, j, hj, hkind⟩
  · have hs₂ := hp.reads_some
    simp only [if_true, ensures_bind, ensures_at?]
    split
    · simp only [ensures_bind]
      refine (separated_param_ensures hr hs₂.fit (.inr hp.behind)).mono fun ns s₃ hs₃ => ?_
      refine (expect_reads hs₃.fit (by decide) _ _).mono fun _ s₄ hs₄ => ?_
      exact (closeGroup_reads hw ((hs₃.before hs₂).behind lasting_isVar hs₄)).mono
        fun _ s₅ hs₅ => ensures_pure.mpr hs₅
    · simp only [ensures_bind]
      refine (expect_reads hs₂.fit (by decide) _ _).mono fun _ s₃ hs₃ => ?_
      exact (closeGroup_reads hw (.none (hs₂.trans hs₃))).mono fun _ s₅ hs₅ => ensures_pure.mpr hs₅
  · have hs₂ := hj.reads_some (isNoName_of_none hkind)
    simp only [Bool.false_eq_true, if_false, ensures_bind]
    exact (closeGroup_reads hw (.none hs₂)).mono fun _ s₅ hs₅ => ensures_pure.mpr hs₅

end Rules

end ScriptAnalysis

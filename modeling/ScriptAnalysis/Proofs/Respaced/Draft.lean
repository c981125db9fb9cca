import ScriptAnalysis.Proofs.Grammar.Lookahead
import ScriptAnalysis.Proofs.Recording.Naming

/-!
# Recordings of two texts that differ in trivia

Two texts with the same words are recorded alike.  `Draft.Respaced` relates two recordings in
progress that are at the same word of their texts: they have the same markers, up to offsets and to
the trivia that a marker would give back, the same starts and ends in the same order, and the same
messages.  Each operation leads from related recordings to related ones.

What a recording keeps of the tokens behind it is only read for offsets, so the tokens recorded need
not be compared (`brackets`).
-/

namespace ScriptAnalysis

/-- The starts and ends among some events. -/
def brackets (events : List Event) : List Event := events.filter fun e => e.token?.isNone

@[simp] theorem brackets_nil : brackets [] = [] := rfl

@[simp] theorem brackets_append (p q : List Event) :
    brackets (p ++ q) = brackets p ++ brackets q := List.filter_append ..

@[simp] theorem brackets_token (t : Token) (p : List Event) :
    brackets (.token t :: p) = brackets p := rfl

@[simp] theorem brackets_start (id : MarkerId) (p : List Event) :
    brackets (.start id :: p) = .start id :: brackets p := rfl

@[simp] theorem brackets_stop (id : MarkerId) (p : List Event) :
    brackets (.stop id :: p) = .stop id :: brackets p := rfl

theorem brackets_reverse (p : List Event) : brackets p.reverse = (brackets p).reverse :=
  List.filter_reverse ..

theorem brackets_consume (ts : List Token) (history : List Event) :
    brackets (consume ts history).2 = brackets history := by
  induction ts generalizing history with
  | nil => rfl
  | cons t ts ih =>
    unfold consume
    split
    · rw [ih, brackets_token]
    · rfl

/-- The markers that start among some events are told by the brackets. -/
theorem filterMap_started? (p : List Event) :
    (brackets p).filterMap Event.started? = p.filterMap Event.started? := by
  induction p with
  | nil => rfl
  | cons e p ih =>
    cases e with
    | token t => exact ih
    | start id =>
      rw [brackets_start, List.filterMap_cons, List.filterMap_cons, ih]
    | stop id => exact ih

theorem brackets_takeWhile (id : MarkerId) (p : List Event) :
    brackets (p.takeWhile (!·.isStart id)) = (brackets p).takeWhile (!·.isStart id) := by
  induction p with
  | nil => rfl
  | cons e p ih =>
    cases e with
    | token t => simpa [List.takeWhile_cons, Event.isStart] using ih
    | start j =>
      rw [List.takeWhile_cons, brackets_start, List.takeWhile_cons]
      split
      · rw [brackets_start, ih]
      · rfl
    | stop j => simpa [List.takeWhile_cons, Event.isStart] using ih

theorem brackets_dropWhile (id : MarkerId) (p : List Event) :
    brackets (p.dropWhile (!·.isStart id)) = (brackets p).dropWhile (!·.isStart id) := by
  induction p with
  | nil => rfl
  | cons e p ih =>
    cases e with
    | token t => simpa [List.dropWhile_cons, Event.isStart] using ih
    | start j =>
      rw [List.dropWhile_cons, brackets_start, List.dropWhile_cons]
      split
      · exact ih
      · rfl
    | stop j => simpa [List.dropWhile_cons, Event.isStart] using ih

/-- Names are found without a look at the tokens. -/
theorem findName_brackets (markers : Array Marker) (wanted : NodeKind → Bool) (owner : MarkerId)
    (p : List Event) (nodes : List Bool) :
    findName markers wanted owner (brackets p) nodes = findName markers wanted owner p nodes := by
  induction p generalizing nodes with
  | nil => rfl
  | cons e p ih =>
    cases e with
    | token t => exact ih nodes
    | start id =>
      rw [brackets_start, findName, findName]
      split
      · rfl
      · exact ih _
    | stop id =>
      rw [brackets_stop, findName, findName]
      split
      · rfl
      · exact ih _

/-- A name is found by the states and the kinds of the markers. -/
theorem findName_congr {markers markers' : Array Marker}
    (h : ∀ id, (markers.getD id {}).isDone = (markers'.getD id {}).isDone ∧
      (markers.getD id {}).kind = (markers'.getD id {}).kind)
    (wanted : NodeKind → Bool) (owner : MarkerId) (p : List Event) (nodes : List Bool) :
    findName markers wanted owner p nodes = findName markers' wanted owner p nodes := by
  induction p generalizing nodes with
  | nil => rfl
  | cons e p ih =>
    cases e with
    | token t => exact ih nodes
    | start id =>
      rw [findName, findName, (h id).1, (h id).2, ih]
    | stop id => rw [findName, findName, ih]

/-! ### Tokens ahead -/

variable (text text' : String)

/-- Tokens of two texts at the same place, not counting trivia, and spelled alike. -/
structure SameToken (t t' : Token) : Prop where
  place : ∃ i : Nat,
    (significant (scan text))[i]? = some t ∧ (significant (scan text'))[i]? = some t'
  kind : t.kind = t'.kind
  spelled : t.textIn text = t'.textIn text'

/-- Tokens ahead in two texts, equally many of which are no trivia. -/
structure SameAhead (ts ts' : List Token) : Prop where
  left : ts <:+ scan text
  right : ts' <:+ scan text'
  count : (significant ts).length = (significant ts').length

/-- Records of one marker in recordings of two texts. -/
structure Marker.Respaced (m m' : Marker) : Prop where
  state : m.state = m'.state
  kind : m.kind = m'.kind
  node : m.node = m'.node
  nameMarker : m.nameMarker = m'.nameMarker
  message : m.diagnostic.map Diagnostic.message = m'.diagnostic.map Diagnostic.message
  resume : SameAhead text text' m.resume m'.resume

/-- Recordings of two texts that are at the same place. -/
structure Draft.Respaced (d d' : Draft) : Prop where
  words : words text = words text'
  ahead : SameAhead text text' d.ahead d'.ahead
  textEnd : d.textEnd = text.utf8ByteSize
  textEnd' : d'.textEnd = text'.utf8ByteSize
  brackets : brackets d.history = brackets d'.history
  size : d.markers.size = d'.markers.size
  marker : ∀ id, (d.marker id).Respaced text text' (d'.marker id)
  opened : d.opened = d'.opened
  messages : d.messages = d'.messages

variable {text text'} {ts ts' : List Token} {t t' u u' : Token}

theorem SameAhead.nil : SameAhead text text' [] [] := ⟨List.nil_suffix, List.nil_suffix, rfl⟩

theorem SameAhead.whole (hwords : words text = words text') :
    SameAhead text text' (scan text) (scan text') := by
  refine ⟨List.suffix_refl _, List.suffix_refl _, ?_⟩
  simpa [words] using congrArg List.length hwords

theorem SameAhead.of_tail (h : SameAhead text text' ts ts') {us us' : List Token}
    (hleft : us <:+ ts) (hright : us' <:+ ts') (htail : significant us = (significant ts).tail)
    (htail' : significant us' = (significant ts').tail) : SameAhead text text' us us' := by
  refine ⟨hleft.trans h.left, hright.trans h.right, ?_⟩
  rw [htail, htail', List.length_tail, List.length_tail, h.count]

theorem SameToken.of_place (hwords : words text = words text') {i : Nat}
    (hi : (significant (scan text))[i]? = some t) (hi' : (significant (scan text'))[i]? = some t') :
    SameToken text text' t t' := by
  have hword := congrArg (fun ws : List (TokenKind × String) => ws[i]?) hwords
  simp only [words, List.getElem?_map, hi, hi', Option.map_some, Option.some.injEq,
    Prod.mk.injEq] at hword
  exact ⟨⟨i, hi, hi'⟩, hword.1, hword.2⟩

/-- A place is told by either of the two tokens. -/
theorem SameToken.eq_iff (h : SameToken text text' t t') (k : SameToken text text' u u') :
    t = u ↔ t' = u' := by
  obtain ⟨i, hi, hi'⟩ := h.place
  obtain ⟨j, hj, hj'⟩ := k.place
  have hplace : ∀ (text : String) {t u : Token}, (significant (scan text))[i]? = some t →
      (significant (scan text))[j]? = some u → (t = u ↔ i = j) := by
    intro text t u hi hj
    constructor
    · rintro rfl
      obtain ⟨hlt, -⟩ := List.getElem?_eq_some_iff.mp hi
      exact (List.getElem?_inj hlt (significant_nodup text)).mp (hi.trans hj.symm)
    · rintro rfl
      exact Option.some.inj (hi.symm.trans hj)
  rw [hplace text hi hj, hplace text' hi' hj']

/-- Counted back from the ends of the texts the places are those counted from the starts. -/
theorem SameAhead.nth (hwords : words text = words text') (h : SameAhead text text' ts ts')
    {n : Nat} (hn : (significant ts)[n]? = some t) :
    ∃ t', (significant ts')[n]? = some t' ∧ SameToken text text' t t' := by
  obtain ⟨front, hfront⟩ := h.left.filter fun t => !t.isTrivia
  obtain ⟨front', hfront'⟩ := h.right.filter fun t => !t.isTrivia
  change front ++ significant ts = significant (scan text) at hfront
  change front' ++ significant ts' = significant (scan text') at hfront'
  have hlength : front.length = front'.length := by
    have hall := (SameAhead.whole hwords).count
    rw [← hfront, ← hfront', List.length_append, List.length_append, h.count] at hall
    exact Nat.add_right_cancel hall
  have hlt : n < (significant ts').length := by
    rw [← h.count]
    exact (List.getElem?_eq_some_iff.mp hn).1
  obtain ⟨t', ht'⟩ : ∃ t', (significant ts')[n]? = some t' :=
    ⟨_, List.getElem?_eq_getElem hlt⟩
  have hi : (significant (scan text))[front.length + n]? = some t := by
    rw [← hfront, List.getElem?_append_right (Nat.le_add_right _ _), Nat.add_sub_cancel_left, hn]
  have hi' : (significant (scan text'))[front.length + n]? = some t' := by
    rw [← hfront', hlength, List.getElem?_append_right (Nat.le_add_right _ _),
      Nat.add_sub_cancel_left, ht']
  exact ⟨t', ht', .of_place hwords hi hi'⟩

namespace Draft

variable {d d' e e' : Draft} {id id' : MarkerId}

/-- What is recorded up to a start begins with it. -/
theorem eq_start_of_upTo {start : Event} {earlier : List Event}
    (h : d.upTo id = start :: earlier) : start = .start id := by
  have hstart := List.head?_dropWhile_not (fun e : Event => !e.isStart id) d.history
  rw [show d.history.dropWhile _ = start :: earlier from h] at hstart
  cases start with
  | start j => simpa [Event.isStart] using hstart
  | token t => cases hstart
  | stop j => cases hstart

theorem isEmpty_upTo (d : Draft) (id : MarkerId) :
    (d.upTo id).isEmpty = (brackets (d.upTo id)).isEmpty := by
  cases hd : d.upTo id with
  | nil => rfl
  | cons start earlier =>
    rw [eq_start_of_upTo hd]
    rfl

namespace Respaced

/-- What stands ahead is at the same place, past the ends as well. -/
theorem lookahead (h : Draft.Respaced text text' d d') (n : Nat) :
    SameToken text text' (d.lookahead n) (d'.lookahead n) := by
  unfold Draft.lookahead
  rw [nthSignificant_eq, nthSignificant_eq]
  cases hn : (significant d.ahead)[n]? with
  | some t =>
    obtain ⟨t', ht', hsame⟩ := h.ahead.nth h.words hn
    rw [ht']
    exact hsame
  | none =>
    have hnone : (significant d'.ahead)[n]? = none := by
      rw [List.getElem?_eq_none_iff, ← h.ahead.count]
      exact List.getElem?_eq_none_iff.mp hn
    have hlast := significant_getLast? text
    have hlast' := significant_getLast? text'
    rw [List.getLast?_eq_getElem?] at hlast hlast'
    rw [← (SameAhead.whole h.words).count] at hlast'
    rw [hnone, Option.getD_none, Option.getD_none, h.textEnd, h.textEnd']
    exact .of_place h.words hlast hlast'

theorem current (h : Draft.Respaced text text' d d') :
    SameToken text text' d.current d'.current := h.lookahead 0

/-- What is declared ahead is the same. -/
theorem declarationShape? (h : Draft.Respaced text text' d d') :
    declarationShape? d.ahead = declarationShape? d'.ahead := by
  rw [declarationShape?_eq, declarationShape?_eq]
  congr 1
  refine List.ext_getElem? fun n => ?_
  rw [List.getElem?_map, List.getElem?_map]
  cases hn : (significant d.ahead)[n]? with
  | some t =>
    obtain ⟨t', ht', hsame⟩ := h.ahead.nth h.words hn
    rw [ht']
    exact congrArg some hsame.kind
  | none =>
    have hnone : (significant d'.ahead)[n]? = none := by
      rw [List.getElem?_eq_none_iff, ← h.ahead.count]
      exact List.getElem?_eq_none_iff.mp hn
    rw [hnone]

/-! ### Records of markers -/

theorem push (h : Draft.Respaced text text' d d') (hahead : SameAhead text text' ts ts')
    (id : MarkerId) : ((d.markers.push { resume := ts }).getD id {}).Respaced text text'
      ((d'.markers.push { resume := ts' }).getD id {}) := by
  rw [d.marker_push, d'.marker_push, h.size]
  split
  · exact ⟨rfl, rfl, rfl, rfl, rfl, hahead⟩
  · exact h.marker id

theorem set {m m' : Marker} (h : Draft.Respaced text text' d d') (i : MarkerId)
    (hm : m.Respaced text text' m') (id : MarkerId) :
    ((d.markers.setIfInBounds i m).getD id {}).Respaced text text'
      ((d'.markers.setIfInBounds i m').getD id {}) := by
  by_cases hi : i < d.markers.size
  · rw [d.marker_setIfInBounds i id m hi, d'.marker_setIfInBounds i id m' (h.size ▸ hi)]
    split
    · exact hm
    · exact h.marker id
  · have hle := Nat.le_of_not_lt hi
    rw [Array.setIfInBounds_eq_of_size_le hle, Array.setIfInBounds_eq_of_size_le (h.size ▸ hle)]
    exact h.marker id

theorem modifyMarker {f f' : Marker → Marker} (h : Draft.Respaced text text' d d') (i : MarkerId)
    (hf : ∀ m m' : Marker, m.Respaced text text' m' → (f m).Respaced text text' (f' m')) :
    Draft.Respaced text text' (d.modifyMarker i f) (d'.modifyMarker i f') where
  words := h.words
  ahead := h.ahead
  textEnd := h.textEnd
  textEnd' := h.textEnd'
  brackets := h.brackets
  size := by simp [Draft.modifyMarker, h.size]
  marker id := by
    by_cases hi : i < d.markers.size
    · rw [d.marker_modify i id f hi, d'.marker_modify i id f' (h.size ▸ hi)]
      split
      · exact hf _ _ (h.marker i)
      · exact h.marker id
    · have hle := Nat.le_of_not_lt hi
      have hsame : ∀ (d : Draft) (f : Marker → Marker), d.markers.size ≤ i →
          (d.modifyMarker i f).marker id = d.marker id := by
        intro d f hle
        unfold Draft.modifyMarker Draft.marker
        rw [Array.getD_eq_getD_getElem?, Array.getD_eq_getD_getElem?, Array.getElem?_modify]
        split
        · next hid => rw [← hid, Array.getElem?_eq_none hle, Option.map_none]
        · rfl
      rw [hsame d f hle, hsame d' f' (h.size ▸ hle)]
      exact h.marker id
  opened := h.opened
  messages := h.messages

/-! ### Operations -/

theorem advance (h : Draft.Respaced text text' d d') :
    Draft.Respaced text text' d.advance d'.advance where
  words := h.words
  ahead := h.ahead.of_tail d.advance_suffix d'.advance_suffix d.significant_advance
    d'.significant_advance
  textEnd := h.textEnd
  textEnd' := h.textEnd'
  brackets := by
    rw [show d.advance.history = (consume d.ahead d.history).2 from rfl,
      show d'.advance.history = (consume d'.ahead d'.history).2 from rfl,
      brackets_consume, brackets_consume, h.brackets]
  size := h.size
  marker := h.marker
  opened := h.opened
  messages := h.messages

theorem since (h : Draft.Respaced text text' d d') (id : MarkerId) :
    ScriptAnalysis.brackets (d.since id) = ScriptAnalysis.brackets (d'.since id) := by
  unfold Draft.since
  rw [brackets_takeWhile, brackets_takeWhile, h.brackets]

theorem upTo (h : Draft.Respaced text text' d d') (id : MarkerId) :
    ScriptAnalysis.brackets (d.upTo id) = ScriptAnalysis.brackets (d'.upTo id) := by
  unfold Draft.upTo
  rw [brackets_dropWhile, brackets_dropWhile, h.brackets]

/-- What is recorded up to a start that both recordings have. -/
theorem upTo_cons (h : Draft.Respaced text text' d d') {start start' : Event}
    {earlier earlier' : List Event} (hd : d.upTo id = start :: earlier)
    (hd' : d'.upTo id = start' :: earlier') : start = .start id ∧ start' = .start id ∧
      ScriptAnalysis.brackets earlier = ScriptAnalysis.brackets earlier' := by
  obtain rfl := eq_start_of_upTo hd
  obtain rfl := eq_start_of_upTo hd'
  have hboth := h.upTo id
  rw [hd, hd', brackets_start, brackets_start] at hboth
  exact ⟨rfl, rfl, (List.cons.inj hboth).2⟩

theorem openMarker (h : Draft.Respaced text text' d d') (hopen : d.openMarker = .ok (id, e))
    (hopen' : d'.openMarker = .ok (id', e')) : id = id' ∧ Draft.Respaced text text' e e' := by
  unfold Draft.openMarker at hopen hopen'
  split at hopen
  · cases hopen
  · split at hopen'
    · cases hopen'
    · cases hopen
      cases hopen'
      refine ⟨h.size, h.words, h.ahead, h.textEnd, h.textEnd', ?_, ?_, ?_, ?_, h.messages⟩
      · rw [brackets_start, brackets_start, h.brackets, h.size]
      · simp [h.size]
      · exact h.push h.ahead
      · rw [h.opened, h.size]

theorem openBefore {inner : MarkerId} (h : Draft.Respaced text text' d d')
    (hopen : d.openBefore inner = .ok (id, e)) (hopen' : d'.openBefore inner = .ok (id', e')) :
    id = id' ∧ Draft.Respaced text text' e e' := by
  unfold Draft.openBefore at hopen hopen'
  split at hopen
  · cases hopen
  · next start earlier hupTo =>
    split at hopen'
    · cases hopen'
    · next start' earlier' hupTo' =>
      cases hopen
      cases hopen'
      obtain ⟨rfl, rfl, hearlier⟩ := h.upTo_cons hupTo hupTo'
      refine ⟨h.size, h.words, h.ahead, h.textEnd, h.textEnd', ?_, ?_, ?_, ?_, h.messages⟩
      · simp only [brackets_append, brackets_start, h.since inner, h.size, hearlier]
      · simp [h.size]
      · exact h.push (h.marker inner).resume
      · rw [h.opened, h.size]

theorem retract (h : Draft.Respaced text text' d d') (id : MarkerId) :
    Draft.Respaced text text' (d.retract id) (d'.retract id) where
  words := h.words
  ahead := h.ahead
  textEnd := h.textEnd
  textEnd' := h.textEnd'
  brackets := h.brackets
  size := by simp [Draft.retract, h.size]
  marker := by
    obtain ⟨-, hkind, hnode, hname, -, hresume⟩ := h.marker id
    exact h.set id ⟨rfl, hkind, hnode, hname, rfl, hresume⟩
  opened := h.opened
  messages := by
    have hmessage := (h.marker id).message
    unfold Draft.retract
    dsimp only
    cases hd : (d.marker id).diagnostic with
    | none =>
      rw [hd, Option.map_none, eq_comm, Option.map_eq_none_iff] at hmessage
      rw [hmessage]
      exact h.messages
    | some diagnostic =>
      rw [hd, Option.map_some, eq_comm, Option.map_eq_some_iff] at hmessage
      obtain ⟨diagnostic', hd', heq⟩ := hmessage
      rw [hd']
      dsimp only
      rw [h.messages, heq]

theorem foldl_retract (h : Draft.Respaced text text' d d') (ids : List MarkerId) :
    Draft.Respaced text text' (ids.foldl Draft.retract d) (ids.foldl Draft.retract d') := by
  induction ids generalizing d d' with
  | nil => exact h
  | cons id ids ih => exact ih (h.retract id)

theorem undo (h : Draft.Respaced text text' d d') (hundo : d.undo id = .ok e)
    (hundo' : d'.undo id = .ok e') : Draft.Respaced text text' e e' := by
  unfold Draft.undo at hundo hundo'
  dsimp only at hundo hundo'
  split at hundo
  · cases hundo
  · split at hundo
    · cases hundo
    · next start earlier hupTo =>
      split at hundo'
      · cases hundo'
      · split at hundo'
        · cases hundo'
        · next start' earlier' hupTo' =>
          cases hundo
          cases hundo'
          obtain ⟨rfl, rfl, hearlier⟩ := h.upTo_cons hupTo hupTo'
          have hids : (d.since id ++ [Event.start id]).filterMap Event.started? =
              (d'.since id ++ [Event.start id]).filterMap Event.started? := by
            rw [← filterMap_started?, ← filterMap_started? (d'.since id ++ _), brackets_append,
              brackets_append, h.since id]
          have hback := h.foldl_retract ((d'.since id ++ [Event.start id]).filterMap Event.started?)
          rw [hids]
          refine ⟨h.words, (h.marker id).resume, hback.textEnd, hback.textEnd',
            hearlier, hback.size, hback.marker, ?_, hback.messages⟩
          dsimp only
          rw [h.opened]

theorem close {state : MarkerState} (h : Draft.Respaced text text' d d')
    (hclose : d.close id state = .ok e) (hclose' : d'.close id state = .ok e') :
    Draft.Respaced text text' e e' := by
  unfold Draft.close at hclose hclose'
  dsimp only at hclose hclose'
  split at hclose
  · cases hclose
  · split at hclose
    · cases hclose
    · next innermost outer hopened =>
      split at hclose
      · cases hclose
      · split at hclose'
        · cases hclose'
        · split at hclose'
          · cases hclose'
          · next innermost' outer' hopened' =>
            split at hclose'
            · cases hclose'
            · cases hclose
              cases hclose'
              have houter := h.opened
              rw [hopened, hopened'] at houter
              obtain ⟨-, hkind, hnode, hname, hmessage, hresume⟩ := h.marker id
              refine ⟨h.words, h.ahead, h.textEnd, h.textEnd', ?_, ?_, ?_, (List.cons.inj houter).2,
                h.messages⟩
              · rw [brackets_stop, brackets_stop, h.brackets]
              · simp [h.size]
              · exact h.set id ⟨rfl, hkind, hnode, hname, hmessage, hresume⟩

theorem nameMarker? (h : Draft.Respaced text text' d d') (id : MarkerId) (kind : NodeKind) :
    d.nameMarker? id kind = d'.nameMarker? id kind := by
  have hempty : (d.upTo id).isEmpty = (d'.upTo id).isEmpty := by
    rw [d.isEmpty_upTo, d'.isEmpty_upTo, h.upTo id]
  unfold Draft.nameMarker?
  split
  · rfl
  · rw [hempty]
    split
    · rfl
    · rw [← findName_brackets, ← findName_brackets d'.markers, brackets_reverse, brackets_reverse,
        h.since id]
      refine findName_congr (fun j => ⟨?_, (h.marker j).kind⟩) _ _ _ _
      exact congrArg (· == MarkerState.done) (h.marker j).state

theorem closeAs {node : NodeId} {kind : NodeKind} (h : Draft.Respaced text text' d d')
    (hclose : d.closeAs id node kind = .ok e) (hclose' : d'.closeAs id node kind = .ok e') :
    Draft.Respaced text text' e e' := by
  unfold Draft.closeAs at hclose hclose'
  cases hd : d.close id .done with
  | error _ =>
    rw [hd] at hclose
    cases hclose
  | ok d₁ =>
    cases hd' : d'.close id .done with
    | error _ =>
      rw [hd'] at hclose'
      cases hclose'
    | ok d₁' =>
      rw [hd] at hclose
      rw [hd'] at hclose'
      cases hclose
      cases hclose'
      have hclosed := h.close hd hd'
      refine hclosed.modifyMarker id fun m m' hm => ?_
      exact ⟨hm.state, rfl, rfl, hclosed.nameMarker? id kind, hm.message, hm.resume⟩

theorem dissolve (h : Draft.Respaced text text' d d') (hclose : d.dissolve id = .ok e)
    (hclose' : d'.dissolve id = .ok e') : Draft.Respaced text text' e e' := h.close hclose hclose'

theorem closeGroup (h : Draft.Respaced text text' d d') (hclose : d.closeGroup id = .ok e)
    (hclose' : d'.closeGroup id = .ok e') : Draft.Respaced text text' e e' := by
  unfold Draft.closeGroup at hclose hclose'
  cases hd : d.close id .done with
  | error _ =>
    rw [hd] at hclose
    cases hclose
  | ok d₁ =>
    cases hd' : d'.close id .done with
    | error _ =>
      rw [hd'] at hclose'
      cases hclose'
    | ok d₁' =>
      rw [hd] at hclose
      rw [hd'] at hclose'
      cases hclose
      cases hclose'
      refine (h.close hd hd').modifyMarker id fun m m' hm => ?_
      exact ⟨hm.state, rfl, hm.node, hm.nameMarker, hm.message, hm.resume⟩

theorem closeError {diagnostic diagnostic' : Diagnostic} (h : Draft.Respaced text text' d d')
    (hmessage : diagnostic.message = diagnostic'.message)
    (hclose : d.closeError id diagnostic = .ok e)
    (hclose' : d'.closeError id diagnostic' = .ok e') :
    Draft.Respaced text text' e e' := by
  unfold Draft.closeError at hclose hclose'
  rw [← hmessage, ← h.messages] at hclose'
  split at hclose
  · next hsaid =>
    rw [hsaid] at hclose'
    exact h.close hclose hclose'
  · next messages hnew =>
    rw [hnew] at hclose'
    have hremembered : Draft.Respaced text text' { d with messages } { d' with messages } :=
      ⟨h.words, h.ahead, h.textEnd, h.textEnd', h.brackets, h.size, h.marker, h.opened, rfl⟩
    cases hd : Draft.close { d with messages } id .error with
    | error _ =>
      rw [hd] at hclose
      cases hclose
    | ok d₁ =>
      cases hd' : Draft.close { d' with messages } id .error with
      | error _ =>
        dsimp only at hclose'
        rw [hd'] at hclose'
        cases hclose'
      | ok d₁' =>
        rw [hd] at hclose
        dsimp only at hclose'
        rw [hd'] at hclose'
        cases hclose
        cases hclose'
        refine (hremembered.close hd hd').modifyMarker id fun m m' hm => ?_
        exact ⟨hm.state, hm.kind, hm.node, hm.nameMarker, congrArg some hmessage, hm.resume⟩

end Respaced

end Draft

end ScriptAnalysis

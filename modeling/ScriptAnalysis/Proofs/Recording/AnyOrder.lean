import Mathlib.Data.List.Induction
import ScriptAnalysis.Proofs.Recording.Operations

/-!
# Recordings made in any order

The grammar uses the operations of a draft in a certain order, but whoever has a draft may use them
in any other.  Whatever is done, a draft that is left without misuse holds the tokens of the text in
their order, and nothing stands between trivia and the token after them (`Unbroken`): tokens are
only recorded up to one that is no trivia, or up to the last one.

The history of a draft has the latest event first, and so do the properties here that go along it.
-/

namespace ScriptAnalysis

/-- What may be done with a draft. -/
inductive RecordAction where
  | advance
  /-- Records the next token if it is of this kind. -/
  | accept (kind : TokenKind)
  | openMarker
  | openBefore (inner : MarkerId)
  | undo (id : MarkerId)
  | closeAs (id : MarkerId) (node : NodeId) (kind : NodeKind)
  | closeWith (id : MarkerId) (node : NodeId) (ast : Ast)
  | closeGroup (id : MarkerId)
  | dissolve (id : MarkerId)
  | closeError (id : MarkerId) (diagnostic : Diagnostic)

namespace Draft

/-- The draft after an action.  If the parse is cancelled no marker is opened, and the draft is as
    it was. -/
def apply (d : Draft) : RecordAction → Except Fault Draft
  | .advance => .ok d.advance
  | .accept kind => .ok (if d.at? kind then d.advance else d)
  | .openMarker =>
    match d.openMarker with
    | .ok (_, d') => .ok d'
    | .error _ => .ok d
  | .openBefore inner => (d.openBefore inner).map Prod.snd
  | .undo id => d.undo id
  | .closeAs id node kind => d.closeAs id node kind
  | .closeWith id node ast => d.closeWith id node ast
  | .closeGroup id => d.closeGroup id
  | .dissolve id => d.dissolve id
  | .closeError id diagnostic => d.closeError id diagnostic

/-- The draft after some actions, one after the other. -/
def applyAll (d : Draft) (actions : List RecordAction) : Except Fault Draft :=
  actions.foldlM apply d

end Draft

/-! ### What a history has recorded -/

/-- A token that comes after trivia comes directly after them. -/
def Unbroken : List Event → Prop
  | [] => True
  | .token _ :: older =>
    (∀ t, (tokensIn older).head? = some t → t.isTrivia = true → older.head? = some (.token t)) ∧
      Unbroken older
  | .start _ :: older => Unbroken older
  | .stop _ :: older => Unbroken older

namespace Unbroken

variable {xs ys older : List Event} {id : MarkerId} {t : Token}

theorem of_append (h : Unbroken (xs ++ ys)) : Unbroken ys := by
  induction xs with
  | nil => exact h
  | cons e xs ih =>
    cases e with
    | token t => exact ih h.2
    | start id => exact ih h
    | stop id => exact ih h

/-- A marker may be opened before the start of another. -/
theorem insert {m : MarkerId} (h : Unbroken (xs ++ .start m :: ys)) :
    Unbroken (xs ++ .start m :: .start id :: ys) := by
  induction xs with
  | nil => exact h
  | cons e xs ih =>
    cases e with
    | token u =>
      refine ⟨?_, ih h.2⟩
      intro t ht htrivia
      have hhead := h.1 t (by simpa using ht) htrivia
      cases xs with
      | nil => exact hhead
      | cons e xs => exact hhead
    | start i => exact ih h
    | stop i => exact ih h

/-- Where a marker starts after trivia, no token comes after it. -/
theorem no_tokens (h : Unbroken (xs ++ .start id :: ys)) (ht : (tokensIn ys).head? = some t)
    (htrivia : t.isTrivia = true) : tokensIn xs = [] := by
  induction xs with
  | nil => rfl
  | cons e xs ih =>
    cases e with
    | token u =>
      have hxs := ih h.2
      have hhead := h.1 t (by simpa [hxs] using ht) htrivia
      cases xs with
      | nil => cases hhead
      | cons e xs =>
        cases e with
        | token v => cases hxs
        | start i => cases hhead
        | stop i => cases hhead
    | start i => exact ih h
    | stop i => exact ih h

/-- Tokens are recorded side by side. -/
theorem record (h : Unbroken older) (ts : List Token)
    (hlast : ∀ t, (tokensIn older).head? = some t → t.isTrivia = true → ts = []) :
    Unbroken ((ts.map .token).reverse ++ older) := by
  induction ts using List.reverseRecOn with
  | nil => exact h
  | append_singleton ts u ih =>
    rw [List.map_append, List.reverse_append]
    cases ts using List.reverseRecOn with
    | nil =>
      refine ⟨?_, h⟩
      intro t ht htrivia
      exact absurd (hlast t ht htrivia) (by simp)
    | append_singleton ts v =>
      refine ⟨?_, ih ?_⟩
      · intro t ht _
        rw [List.map_append, List.reverse_append] at ht ⊢
        cases ht
        rfl
      · intro t ht htrivia
        exact absurd (hlast t ht htrivia) (by simp)

end Unbroken

theorem tokensIn_reverse (events : List Event) :
    tokensIn events.reverse = (tokensIn events).reverse := by
  unfold tokensIn
  rw [List.filterMap_reverse]

namespace Draft

variable {tokens : List Token} {d d' : Draft} {id : MarkerId}

/-- To take a marker back is to go back to where it starts: the tokens recorded before its start and
    those that it resumes with are all of them. -/
def Resumes (tokens : List Token) (d : Draft) : List Event → Prop
  | [] => True
  | .start id :: older =>
    (id < d.markers.size ∧ (tokensIn older).reverse ++ (d.marker id).resume = tokens) ∧
      d.Resumes tokens older
  | .token _ :: older => d.Resumes tokens older
  | .stop _ :: older => d.Resumes tokens older

theorem marker_of_push {m : Marker} (hd : d'.markers = d.markers.push m) :
    d.markers.size < d'.markers.size ∧ d'.marker d.markers.size = m := by
  unfold marker
  rw [hd, marker_push, if_pos rfl, Array.size_push]
  exact ⟨Nat.lt_succ_self _, rfl⟩

namespace Resumes

variable {xs ys : List Event}

theorem of_append (h : d.Resumes tokens (xs ++ ys)) : d.Resumes tokens ys := by
  induction xs with
  | nil => exact h
  | cons e xs ih =>
    cases e with
    | token t => exact ih h
    | start id => exact ih h.2
    | stop id => exact ih h

/-- Markers that are known already keep what they resume with. -/
theorem congr (h : d.Resumes tokens ys) (hsize : d.markers.size ≤ d'.markers.size)
    (hresume : ∀ id < d.markers.size, (d'.marker id).resume = (d.marker id).resume) :
    d'.Resumes tokens ys := by
  induction ys with
  | nil => trivial
  | cons e ys ih =>
    cases e with
    | token t => exact ih h
    | start id =>
      obtain ⟨⟨hid, heq⟩, hys⟩ := h
      refine ⟨⟨Nat.lt_of_lt_of_le hid hsize, ?_⟩, ih hys⟩
      rw [hresume id hid]
      exact heq
    | stop id => exact ih h

/-- A marker that is added does not matter to those that are there. -/
theorem push (h : d.Resumes tokens ys) {m : Marker} (hd : d'.markers = d.markers.push m) :
    d'.Resumes tokens ys := by
  refine h.congr ?_ fun id hid => ?_
  · rw [hd, Array.size_push]
    exact Nat.le_succ _
  · unfold marker
    rw [hd, marker_push, if_neg (Nat.ne_of_lt hid)]
    rfl

theorem insert (h : d.Resumes tokens (xs ++ ys)) (hid : id < d.markers.size)
    (hresume : (tokensIn ys).reverse ++ (d.marker id).resume = tokens) :
    d.Resumes tokens (xs ++ .start id :: ys) := by
  induction xs with
  | nil => exact ⟨⟨hid, hresume⟩, h⟩
  | cons e xs ih =>
    cases e with
    | token t => exact ih h
    | start i =>
      obtain ⟨⟨hi, heq⟩, hxs⟩ := h
      refine ⟨⟨hi, ?_⟩, ih hxs⟩
      simpa using heq
    | stop i => exact ih h

theorem record (h : d.Resumes tokens ys) (ts : List Token) :
    d.Resumes tokens ((ts.map .token).reverse ++ ys) := by
  induction ts generalizing ys with
  | nil => exact h
  | cons t ts ih =>
    rw [List.map_cons, List.reverse_cons, List.append_assoc]
    exact ih h

end Resumes

/-- The draft holds the tokens of a text, and so it does when markers are taken back. -/
structure Traces (tokens : List Token) (d : Draft) : Prop where
  tokens_eq : (tokensIn d.history).reverse ++ d.ahead = tokens
  resumes : d.Resumes tokens d.history
  unbroken : Unbroken d.history
  /-- Trivia are recorded without the token after them only where there is none. -/
  spent : ∀ t, (tokensIn d.history).head? = some t → t.isTrivia = true → d.ahead = []

theorem ofTokens_traces (tokens : List Token) (marksLeft : Option Nat) :
    (ofTokens tokens marksLeft).Traces tokens :=
  ⟨rfl, trivial, trivial, fun _ ht => by cases ht⟩

/-! ### What the actions keep -/

theorem Traces.advance (h : d.Traces tokens) : d.advance.Traces tokens := by
  rcases advance_cases d with ⟨blank, t, rest, hahead, -, ht, -, hadv⟩ | ⟨-, hadv⟩
  · have hlast : ∀ u, (tokensIn d.history).head? = some u → u.isTrivia = true →
        blank ++ [t] = [] := by
      intro u hu htrivia
      have hnone := h.spent u hu htrivia
      rw [hahead] at hnone
      exact absurd hnone (by simp)
    rw [hadv]
    refine ⟨?_, (h.resumes.record _).congr (Nat.le_refl _) fun _ _ => rfl,
      h.unbroken.record _ hlast, ?_⟩
    · rw [← h.tokens_eq, hahead, tokensIn_append, tokensIn_reverse, tokensIn_map_token]
      simp
    · intro u hu htrivia
      rw [tokensIn_append, tokensIn_reverse, tokensIn_map_token] at hu
      have : u = t := by simpa using hu.symm
      rw [this, ht] at htrivia
      cases htrivia
  · rw [hadv]
    refine ⟨?_, (h.resumes.record _).congr (Nat.le_refl _) fun _ _ => rfl,
      h.unbroken.record _ h.spent, fun _ _ _ => rfl⟩
    rw [← h.tokens_eq, tokensIn_append, tokensIn_reverse, tokensIn_map_token]
    simp

theorem Traces.openMarker (h : d.Traces tokens) (hok : d.openMarker = .ok (id, d')) :
    d'.Traces tokens := by
  unfold Draft.openMarker at hok
  split at hok
  · cases hok
  · cases hok
    have hpush : ({ d with markers := d.markers.push { resume := d.ahead } } : Draft).markers =
        d.markers.push { resume := d.ahead } := rfl
    obtain ⟨hlt, hnew⟩ := marker_of_push hpush
    refine ⟨h.tokens_eq, ⟨⟨hlt, ?_⟩, h.resumes.push rfl⟩, h.unbroken, h.spent⟩
    refine Eq.trans (congrArg (fun m : Marker => _ ++ m.resume) hnew) h.tokens_eq

/-- The history around the start of a marker. -/
theorem history_of_upTo {start : Event} {earlier : List Event} (h : d.upTo id = start :: earlier) :
    start = .start id ∧ d.history = d.since id ++ .start id :: earlier := by
  unfold upTo at h
  have hhead := List.head?_dropWhile_not (fun e : Event => !e.isStart id) d.history
  rw [h] at hhead
  have hstart : start = .start id := by
    cases start with
    | token t => cases hhead
    | start m => simpa [Event.isStart] using hhead
    | stop m => cases hhead
  refine ⟨hstart, ?_⟩
  rw [← hstart, ← h]
  exact (List.takeWhile_append_dropWhile).symm

/-- A marker is put directly in front of the one that it is opened around. -/
theorem openBefore_cases {inner : MarkerId} (hok : d.openBefore inner = .ok (id, d')) :
    id = d.markers.size ∧ ∃ earlier, d.history = d.since inner ++ .start inner :: earlier ∧
      d' = { d with
        markers := d.markers.push { resume := (d.marker inner).resume }
        history := d.since inner ++ .start inner :: .start d.markers.size :: earlier
        opened := if inner ∈ d.opened then insertOutside inner d.markers.size d.opened
          else d.markers.size :: d.opened } := by
  unfold Draft.openBefore at hok
  split at hok
  · cases hok
  · next start earlier hupTo =>
    obtain ⟨rfl, hhistory⟩ := history_of_upTo hupTo
    cases hok
    exact ⟨rfl, earlier, hhistory, rfl⟩

/-- What is taken back is what was recorded since the start of an open marker. -/
theorem undo_cases (hok : d.undo id = .ok d') :
    (d.marker id).state = .opened ∧ ∃ earlier, d.history = d.since id ++ .start id :: earlier ∧
      d' = { ((d.since id ++ [Event.start id]).filterMap Event.started?).foldl retract d with
        history := earlier
        opened := if id ∈ d.opened then (d.opened.dropWhile (· ≠ id)).tail else d.opened
        ahead := (d.marker id).resume } := by
  unfold Draft.undo at hok
  dsimp only at hok
  split at hok
  · cases hok
  · next hstate =>
    split at hok
    · cases hok
    · next start earlier hupTo =>
      obtain ⟨rfl, hhistory⟩ := history_of_upTo hupTo
      exact ⟨Decidable.not_not.mp hstate, earlier, hhistory, (Except.ok.inj hok).symm⟩

theorem Traces.openBefore {inner : MarkerId} (h : d.Traces tokens)
    (hok : d.openBefore inner = .ok (id, d')) : d'.Traces tokens := by
  obtain ⟨rfl, earlier, hhistory, rfl⟩ := openBefore_cases hok
  obtain ⟨htokens, hresumes, hunbroken, hspent⟩ := h
  rw [hhistory] at htokens hresumes hunbroken hspent
  let resume := (d.marker inner).resume
  have hpush : ({ d with markers := d.markers.push { resume } } : Draft).markers =
      d.markers.push { resume } := rfl
  obtain ⟨hlt, hnew⟩ := marker_of_push hpush
  have hinner := hresumes.of_append.1.2
  rw [List.append_cons] at hresumes
  refine ⟨by simpa using htokens, ?_, hunbroken.insert, by simpa using hspent⟩
  dsimp only
  rw [List.append_cons]
  refine (hresumes.push rfl).insert hlt ?_
  exact Eq.trans (congrArg (fun m : Marker => _ ++ m.resume) hnew) hinner

/-- The draft records the end of a marker. -/
structure Stops (d : Draft) (id : MarkerId) (d' : Draft) : Prop where
  history : d'.history = .stop id :: d.history
  ahead : d'.ahead = d.ahead
  size : d'.markers.size = d.markers.size
  resume : ∀ j, (d'.marker j).resume = (d.marker j).resume

theorem Traces.stop (h : d.Traces tokens) (hs : d.Stops id d') : d'.Traces tokens := by
  obtain ⟨htokens, hresumes, hunbroken, hspent⟩ := h
  rw [← hs.ahead] at htokens hspent
  refine ⟨?_, ?_, ?_, ?_⟩
  · rw [hs.history]
    exact htokens
  · rw [hs.history]
    exact hresumes.congr (Nat.le_of_eq hs.size.symm) fun j _ => hs.resume j
  · rw [hs.history]
    exact hunbroken
  · rw [hs.history]
    exact hspent

/-- A changed record resumes with what it resumed with. -/
theorem resume_setIfInBounds (d : Draft) (i : MarkerId) {m : Marker}
    (hm : m.resume = (d.marker i).resume) (j : MarkerId) :
    ((d.markers.setIfInBounds i m).getD j {}).resume = (d.marker j).resume := by
  by_cases hi : i < d.markers.size
  · rw [d.marker_setIfInBounds i j m hi]
    split
    · next he =>
      subst he
      exact hm
    · rfl
  · rw [Array.setIfInBounds_eq_of_size_le (Nat.le_of_not_lt hi)]
    rfl

theorem resume_modifyMarker (d : Draft) (i : MarkerId) {f : Marker → Marker}
    (hf : ∀ m, (f m).resume = m.resume) (j : MarkerId) :
    ((d.modifyMarker i f).marker j).resume = (d.marker j).resume := by
  simp only [modifyMarker, marker, Array.getD_eq_getD_getElem?, Array.getElem?_modify]
  split
  · cases d.markers[j]? with
    | none => rfl
    | some m => exact hf m
  · rfl

theorem close_stops {state : MarkerState} (hok : d.close id state = .ok d') : d.Stops id d' := by
  obtain ⟨-, outer, -, rfl⟩ := close_cases hok
  refine ⟨rfl, rfl, Array.size_setIfInBounds, ?_⟩
  exact fun j => d.resume_setIfInBounds id (by exact rfl) j

theorem Stops.modifyMarker (hs : d.Stops id d') {f : Marker → Marker}
    (hf : ∀ m, (f m).resume = m.resume) : d.Stops id (d'.modifyMarker id f) := by
  refine ⟨hs.history, hs.ahead, ?_, ?_⟩
  · rw [← hs.size]
    exact Array.size_modify
  · intro j
    rw [resume_modifyMarker d' id hf, hs.resume]

theorem dissolve_stops (hok : d.dissolve id = .ok d') : d.Stops id d' := close_stops hok

theorem closeAs_stops {node : NodeId} {kind : NodeKind} (hok : d.closeAs id node kind = .ok d') :
    d.Stops id d' := by
  obtain ⟨d₁, hclose, rfl⟩ := closeAs_cases hok
  exact (close_stops hclose).modifyMarker fun _ => rfl

theorem closeGroup_stops (hok : d.closeGroup id = .ok d') : d.Stops id d' := by
  obtain ⟨d₁, hclose, rfl⟩ := closeGroup_cases hok
  exact (close_stops hclose).modifyMarker fun _ => rfl

theorem closeWith_stops {node : NodeId} {ast : Ast} (hok : d.closeWith id node ast = .ok d') :
    d.Stops id d' := by
  unfold closeWith at hok
  split at hok
  · exact closeAs_stops hok
  · exact dissolve_stops hok

theorem closeError_stops {diagnostic : Diagnostic} (hok : d.closeError id diagnostic = .ok d') :
    d.Stops id d' := by
  rcases closeError_cases hok with ⟨-, hdissolve⟩ | ⟨messages, d₁, -, hclose, rfl⟩
  · exact dissolve_stops hdissolve
  · obtain ⟨hhistory, hahead, hsize, hresume⟩ := close_stops hclose
    have hs : d.Stops id d₁ := ⟨hhistory, hahead, hsize, hresume⟩
    exact hs.modifyMarker fun _ => rfl

/-- What is taken back may be recorded again. -/
theorem foldl_retract_resume (ids : List MarkerId) (d : Draft) (j : MarkerId) :
    ((ids.foldl retract d).marker j).resume = (d.marker j).resume := by
  induction ids generalizing d with
  | nil => rfl
  | cons i ids ih =>
    rw [List.foldl_cons, ih]
    exact d.resume_setIfInBounds i (by exact rfl) j

theorem Traces.undo (h : d.Traces tokens) (hok : d.undo id = .ok d') : d'.Traces tokens := by
  obtain ⟨-, earlier, hhistory, rfl⟩ := undo_cases hok
  obtain ⟨htokens, hresumes, hunbroken, hspent⟩ := h
  rw [hhistory] at htokens hresumes hunbroken hspent
  have hresume := hresumes.of_append.1.2
  refine ⟨hresume, ?_, hunbroken.of_append, ?_⟩
  · refine hresumes.of_append.2.congr ?_ ?_
    · exact Nat.le_of_eq (foldl_retract _ d).2.2.2.1.symm
    · exact fun j _ => foldl_retract_resume _ d j
  · -- If the start stands after trivia, nothing was recorded since, and nothing was ahead.
    intro t ht htrivia
    have hsince := hunbroken.no_tokens ht htrivia
    have hnone := hspent t (by simpa [hsince] using ht) htrivia
    rw [hnone, List.append_nil, tokensIn_append, hsince, List.nil_append,
      tokensIn_start] at htokens
    rw [← htokens] at hresume
    exact List.append_right_eq_self.mp hresume

theorem Traces.apply (h : d.Traces tokens) {action : RecordAction}
    (hok : d.apply action = .ok d') : d'.Traces tokens := by
  cases action with
  | advance =>
    cases hok
    exact h.advance
  | accept kind =>
    cases hok
    split
    · exact h.advance
    · exact h
  | openMarker =>
    cases hopen : d.openMarker with
    | error e =>
      simp only [Draft.apply, hopen] at hok
      cases hok
      exact h
    | ok r =>
      obtain ⟨id, d₁⟩ := r
      simp only [Draft.apply, hopen] at hok
      cases hok
      exact h.openMarker hopen
  | openBefore inner =>
    cases hopen : d.openBefore inner with
    | error e =>
      simp only [Draft.apply, hopen] at hok
      cases hok
    | ok r =>
      obtain ⟨id, d₁⟩ := r
      simp only [Draft.apply, hopen] at hok
      cases hok
      exact h.openBefore hopen
  | undo id => exact h.undo hok
  | closeAs id node kind => exact h.stop (closeAs_stops hok)
  | closeWith id node ast => exact h.stop (closeWith_stops hok)
  | closeGroup id => exact h.stop (closeGroup_stops hok)
  | dissolve id => exact h.stop (dissolve_stops hok)
  | closeError id diagnostic => exact h.stop (closeError_stops hok)

/-- By induction on the actions. -/
theorem Traces.applyAll (h : d.Traces tokens) {actions : List RecordAction}
    (hok : d.applyAll actions = .ok d') : d'.Traces tokens := by
  unfold Draft.applyAll at hok
  induction actions generalizing d with
  | nil =>
    cases hok
    exact h
  | cons action actions ih =>
    rw [List.foldlM_cons] at hok
    cases heq : d.apply action with
    | error e =>
      rw [heq] at hok
      cases hok
    | ok d₁ =>
      rw [heq] at hok
      exact ih (h.apply heq) hok

/-- The transcript has all tokens, whatever was done. -/
theorem Traces.toTranscript (h : d.Traces tokens) {t : Transcript}
    (hok : d.toTranscript = .ok t) : tokensIn t.events = tokens ∧ Unbroken t.events.reverse := by
  unfold Draft.toTranscript at hok
  split at hok
  · cases hok
  · cases hok
    constructor
    · rw [tokensIn_append, tokensIn_map_token, events, tokensIn_reverse]
      exact h.tokens_eq
    · rw [events, List.reverse_append, List.reverse_reverse]
      exact h.unbroken.record _ h.spent

end Draft

end ScriptAnalysis

import ScriptAnalysis.Proofs.Grammar.Run
import ScriptAnalysis.Proofs.Recording.Settled

/-!
# The token that a marker is about

A marker is opened in front of a token, past the trivia.  Whatever ends it then is about that token:
a node starts with it, and a fault is said of it (`Marker.Concerns`).  Another marker may be put
around it later, and what was read inside may be taken back, but the token stays the next one behind
the start of the marker.

So this is told of the events of a run (`Run.concerned`), by induction on its steps: each marker
among them concerns the token that comes next after its start.
-/

namespace ScriptAnalysis

open ParseState

/-- The first token that is no trivia.  Past the last one stands an empty token at the end of the
    text. -/
def upcoming (tokens : List Token) (textEnd : Nat) : Token :=
  (nthSignificant tokens 0).getD ⟨.eof, .point textEnd⟩

theorem Draft.current_eq_upcoming (d : Draft) : d.current = upcoming d.ahead d.textEnd := rfl

/-- What a marker stands for starts with the token `t`, and what it reports is said of `t`. -/
structure Marker.Concerns (text : String) (ast : Ast) (t : Token) (r : Marker) : Prop where
  node : ∀ n, r.node = some n → ast.StartsAt n t.offset
  fault : ∀ d, r.diagnostic = some d → Blames text t d

namespace Marker.Concerns

variable {text : String} {ast ast' : Ast} {t : Token} {r : Marker}

theorem later (h : r.Concerns text ast t) (hast : ast.Extends ast') : r.Concerns text ast' t where
  node n hn := (h.node n hn).later hast
  fault := h.fault

theorem of_blank (hnode : r.node = none) (hdiagnostic : r.diagnostic = none) :
    r.Concerns text ast t where
  node n hn := by
    rw [hnode] at hn
    cases hn
  fault d hd := by
    rw [hdiagnostic] at hd
    cases hd

end Marker.Concerns

/-- Every marker among the events concerns the token that is next behind its start. -/
def Concerned (text : String) (s : ParseState) (p : List Event) : Prop :=
  ∀ before m after, p = before ++ .start m :: after →
    (s.draft.marker m).Concerns text s.ast
      (upcoming (tokensIn after ++ s.draft.ahead) s.draft.textEnd)

variable {text : String} {P : NodeData → Span → Prop} {S : Token → Prop} {phase : Phase}
  {s s' s₁ s₂ s₃ : ParseState} {m : MarkerId} {p q : List Event}

theorem Writes.of_draft (h : s'.draft = s.draft) : Writes s s' [] :=
  (show Stepped false s s' [] from .of_draft h).toWrites

theorem Writes.unique (h : Writes s s' p) (k : Writes s s' q) : p = q := by
  have heq := h.events.symm.trans k.events
  exact List.reverse_injective (List.append_cancel_right heq)

/-- The start of a marker is among the events in front of the end of another one. -/
theorem split_before_stop {before after : List Event} {id : MarkerId}
    (h : p ++ [.stop m] = before ++ .start id :: after) :
    ∃ mid, p = before ++ .start id :: mid ∧ after = mid ++ [.stop m] := by
  rcases List.append_eq_append_iff.mp h with ⟨mid, -, hstop⟩ | ⟨mid, rfl, hafter⟩
  · have hmem : Event.start id ∈ [Event.stop m] := hstop ▸ by simp
    simp at hmem
  · cases mid with
    | nil => simp at hafter
    | cons e mid =>
      obtain ⟨rfl, rfl⟩ := List.cons.inj hafter
      exact ⟨mid, rfl, rfl⟩

namespace Concerned

theorem of_no_starts (h : ∀ m, .start m ∉ p) : Concerned text s p := by
  rintro before m after rfl
  exact absurd (by simp) (h m)

/-- What comes behind some events changes nothing for the markers among them. -/
theorem append (h : Concerned text s₁ p) (hfresh : ∀ id, .start id ∈ p → id < s₁.draft.markers.size)
    (k : Writes s₁ s₂ q) (hast : s₁.ast.Extends s₂.ast) (hq : Concerned text s₂ q) :
    Concerned text s₂ (p ++ q) := by
  intro before m after heq
  rcases List.append_eq_append_iff.mp heq with ⟨mid, -, hmid⟩ | ⟨mid, hp, hmid⟩
  · exact hq mid m after hmid
  · cases mid with
    | nil => exact hq [] m after hmid.symm
    | cons e mid =>
      obtain ⟨rfl, rfl⟩ := List.cons.inj hmid
      have hm := (h before m mid hp).later hast
      rw [k.ahead, ← k.textEnd, ← List.append_assoc, ← tokensIn_append] at hm
      rw [k.marker m (hfresh m (by rw [hp]; simp))]
      exact hm

/-- The markers in one that ends are what they were. -/
theorem inside {d : Draft} (h : Concerned text s' (.start m :: p)) (hin : Within m s s' p)
    (hd : s'.draft.ClosesOver m p d) :
    Concerned text { s' with draft := d } (p ++ [.stop m]) := by
  intro before id after heq
  obtain ⟨mid, rfl, rfl⟩ := split_before_stop heq
  have hne : id ≠ m := by
    rintro rfl
    exact hin.not_mem (by simp)
  dsimp only
  rw [hd.ahead, hd.textEnd, hd.marker id hne]
  simpa using h (.start m :: before) id mid rfl

/-- A marker ends; the others are what they were. -/
theorem ends {d : Draft} (h : Concerned text s' (.start m :: p)) (hin : Within m s s' p)
    (hd : s'.draft.ClosesOver m p d) (hm : (d.marker m).Concerns text s'.ast s.draft.current) :
    Concerned text { s' with draft := d } (.start m :: p ++ [.stop m]) := by
  intro before id after heq
  cases before with
  | nil =>
    obtain ⟨hid, rfl⟩ := List.cons.inj heq
    obtain rfl := Event.start.inj hid
    have hcur : s.draft.current =
        upcoming (tokensIn (p ++ [.stop m]) ++ d.ahead) d.textEnd := by
      rw [Draft.current_eq_upcoming, hin.ahead, hd.ahead, hd.textEnd, hin.textEnd]
      simp
    exact hcur ▸ hm
  | cons e before =>
    obtain ⟨-, hp⟩ := List.cons.inj heq
    exact h.inside hin hd before id after hp

end Concerned

/-- A marker that is open means nothing yet. -/
def Phase.Blank (s : ParseState) : Phase → Prop
  | .inside m => (s.draft.marker m).node = none ∧ (s.draft.marker m).diagnostic = none
  | _ => True

theorem Writes.lt_size (h : Writes s s' p) (id : MarkerId) (hid : .start id ∈ p) :
    id < s'.draft.markers.size := (h.fresh id hid).2

/-- When a marker ends with a node that starts here, it concerns the next token. -/
theorem concerns_closeWith {n : NodeId} {d : Draft} {t : Token} (hs : s'.Sound S)
    (hin : Within m s s' p) (hblank : (Phase.inside m).Blank s')
    (hd : s'.draft.closeWith m n s'.ast = .ok d)
    (hstarts : s'.ast.StartsAt n t.offset) :
    (d.marker m).Concerns text s'.ast t := by
  have hsettles := Draft.closeWith_settles hs.known hd
  refine ⟨fun n' hn' => ?_, fun diagnostic hdiagnostic => ?_⟩
  · unfold Draft.closeWith at hd
    split at hd
    · rw [(Draft.closeAs_closes hin.new.2 hin.history hin.not_mem hd).node] at hn'
      obtain rfl := Option.some.inj hn'
      exact hstarts
    · obtain ⟨-, -, -, hnode, -⟩ := Draft.close_closes hin.new.2 hd
      rw [hnode, hblank.1] at hn'
      cases hn'
  · rw [hsettles.diagnostic, hblank.2] at hdiagnostic
    cases hdiagnostic

theorem concerns_closeError {diagnostic : Diagnostic} {d : Draft} {t : Token} (hs : s'.Sound S)
    (hin : Within m s s' p) (hblank : (Phase.inside m).Blank s')
    (hd : s'.draft.closeError m diagnostic = .ok d) (hblames : Blames text t diagnostic) :
    (d.marker m).Concerns text s'.ast t := by
  have hnode := (Draft.closeError_closes hin.new.2 hd).2.1.trans hblank.1
  rcases Draft.closeError_told hs.known hd with ⟨-, hsettles⟩ | htells
  · exact .of_blank hnode (hsettles.diagnostic.trans hblank.2)
  · refine ⟨fun n hn => ?_, fun d' hd' => ?_⟩
    · rw [hnode] at hn
      cases hn
    · obtain rfl := Option.some.inj (htells.diagnostic_eq.symm.trans hd')
      exact hblames

/-- What a run tells of its markers: an open one means nothing, and each one concerns the token that
    is next behind its start. -/
structure Run.Told (text : String) (phase : Phase) (s s' : ParseState) : Prop where
  blank : phase.Blank s'
  concerned : ∀ p, Writes s s' p → Concerned text s' p

/-- When the marker ends, the run tells of it what it tells of the others. -/
theorem Within.told_ends {d : Draft} {led : Bool} (hin : Within m s s' p)
    (h : Run.Told text (.inside m) s s') (hd : s'.draft.ClosesOver m p d)
    (hm : (d.marker m).Concerns text s'.ast s.draft.current) :
    Run.Told text (.whole m led) s { s' with draft := d } := by
  have hwhole : Closed m true s { s' with draft := d } p := hin.ends hd fun _ => .inl rfl
  exact ⟨trivial, fun q hq =>
    hwhole.unique hq ▸ (h.concerned _ hin.toWrites).ends hin hd hm⟩

/-- A new marker means nothing, and the others are what they were. -/
theorem Run.Told.opens {d : Draft} {resume : List Token} {m' : MarkerId}
    (h : Concerned text s' p) (hfresh : ∀ id, .start id ∈ p → id < s'.draft.markers.size)
    (hm' : m' = s'.draft.markers.size) (hmarkers : d.markers = s'.draft.markers.push { resume })
    (hahead : d.ahead = s'.draft.ahead) (htextEnd : d.textEnd = s'.draft.textEnd)
    (hin : Within m' s { s' with draft := d } p) :
    Run.Told text (.inside m') s { s' with draft := d } := by
  have hmarker := fun id => (congrArg (·.getD id {}) hmarkers).trans
    (s'.draft.marker_push { resume } id)
  have hself := (hmarker m').trans (if_pos hm')
  refine ⟨⟨congrArg Marker.node hself, congrArg Marker.diagnostic hself⟩, fun q hq => ?_⟩
  rw [hq.unique hin.toWrites]
  intro before id after heq
  cases before with
  | nil =>
    obtain rfl := Event.start.inj (List.cons.inj heq).1
    exact .of_blank (congrArg Marker.node hself) (congrArg Marker.diagnostic hself)
  | cons e before =>
    obtain ⟨-, rfl⟩ := List.cons.inj heq
    have hid := hfresh id (by simp)
    dsimp only
    rw [hahead, htextEnd, show d.marker id = s'.draft.marker id from
      (hmarker id).trans (if_neg (Nat.ne_of_lt hid))]
    exact h before id after rfl

/-- By induction on the run. -/
theorem Run.told (h : Run text P phase s s') (hs : s.Sound S) : Run.Told text phase s s' := by
  have hnothing {s s' : ParseState} (hp : Writes s s' []) (q : List Event) (hq : Writes s s' q) :
      Concerned text s' q := hp.unique hq ▸ .of_no_starts (by simp)
  have hsame {s s' : ParseState} (hdraft : s'.draft = s.draft) :
      ∀ q, Writes s s' q → Concerned text s' q :=
    hnothing (.of_draft hdraft)
  induction h with
  | refl s => exact ⟨trivial, hsame rfl⟩
  | advance s =>
    refine ⟨trivial, fun p hp => .of_no_starts fun m hm => ?_⟩
    obtain ⟨hle, hlt⟩ := hp.fresh m hm
    exact absurd hlt (Nat.not_lt.mpr hle)
  | alloc s _ => exact ⟨trivial, hsame rfl⟩
  | unbrace s _ => exact ⟨trivial, hsame rfl⟩
  | trans h₁ h₂ _ ih₁ ih₂ =>
    obtain ⟨p, hp⟩ := h₁.records hs
    have hs₂ := h₁.sound hs
    obtain ⟨q, hq⟩ := h₂.records hs₂
    refine ⟨trivial, fun r hr => ?_⟩
    rw [hr.unique (hp.toWrites.trans hq.toWrites)]
    exact ((ih₁ hs).concerned p hp.toWrites).append hp.lt_size hq.toWrites h₂.allocates.extends_ast
      ((ih₂ hs₂).concerned q hq.toWrites)
  | undo h hd _ =>
    obtain ⟨p, hp⟩ := h.records hs
    exact ⟨trivial, hnothing (hp.undo false hd).toWrites⟩
  | ended _ ih => exact ⟨trivial, (ih hs).concerned⟩
  | @openMarker m s d hd =>
    have hin := within_openMarker hd
    unfold Draft.openMarker at hd
    split at hd
    · cases hd
    · cases hd
      exact .opens (p := []) (.of_no_starts (by simp)) (by simp) rfl rfl rfl rfl hin
  | openBefore h hd ih =>
    obtain ⟨p, hp⟩ := h.records hs
    have hin := within_openBefore hs hp hd
    unfold Draft.openBefore at hd
    split at hd
    · cases hd
    · cases hd
      exact .opens ((ih hs).concerned _ hp.toWrites) hp.lt_size rfl rfl rfl rfl hin
  | @more _ m _ _ _ h₁ h₂ _ ih₁ ih₂ =>
    obtain ⟨p, hp⟩ := h₁.records hs
    have hs₂ := h₁.sound hs
    obtain ⟨q, hq⟩ := h₂.records hs₂
    have hm := hq.marker m hp.new.2
    refine ⟨⟨hm ▸ (ih₁ hs).blank.1, hm ▸ (ih₁ hs).blank.2⟩, fun r hr => ?_⟩
    rw [hr.unique (hp.toWrites.trans hq.toWrites)]
    exact ((ih₁ hs).concerned _ hp.toWrites).append hp.lt_size hq.toWrites h₂.allocates.extends_ast
      ((ih₂ hs₂).concerned q hq.toWrites)
  | close h hd hstarts _ ih =>
    obtain ⟨p, hp⟩ := h.records hs
    have hover := Draft.closeWith_over hp.new.2 hp.history hp.not_mem hd
    refine hp.told_ends (ih hs) hover ?_
    exact concerns_closeWith (h.sound hs) hp (ih hs).blank hd hstarts
  | closeGroup h hd _ ih =>
    obtain ⟨p, hp⟩ := h.records hs
    have hover := Draft.closeGroup_over hp.new.2 hp.history hp.not_mem hd
    refine hp.told_ends (ih hs) hover (.of_blank ?_ ?_)
    · exact (Draft.closeGroup_closes hp.new.2 hd).2.1.trans (ih hs).blank.1
    · exact (Draft.closeGroup_settles (h.sound hs).known hd).diagnostic.trans (ih hs).blank.2
  | dissolve h hd ih =>
    obtain ⟨p, hp⟩ := h.records hs
    have hover := Draft.close_over hp.new.2 hp.history hp.not_mem hd
    refine hp.told_ends (ih hs) hover (.of_blank ?_ ?_)
    · exact (Draft.close_closes hp.new.2 hd).2.2.2.1.trans (ih hs).blank.1
    · exact (Draft.dissolve_settles (h.sound hs).known hd).diagnostic.trans (ih hs).blank.2
  | report h hd hblames ih =>
    obtain ⟨p, hp⟩ := h.records hs
    obtain ⟨hover, -⟩ := Draft.closeError_over hp.new.2 hp.history hp.not_mem hd
    refine hp.told_ends (ih hs) hover ?_
    exact concerns_closeError (h.sound hs) hp (ih hs).blank hd hblames
  | @behind _ _ _ s' data span h _ ih =>
    obtain ⟨p, hp⟩ := h.records hs
    refine ⟨trivial, fun q hq => ?_⟩
    have hnone := Writes.of_draft (show (s'.allocated data span).draft = s'.draft from rfl)
    rw [← List.append_nil q, hq.unique (hp.toWrites.trans hnone), List.append_nil]
    exact ((ih hs).concerned _ hp.toWrites).append hp.lt_size hnone
      (s'.extends_allocated data span) (.of_no_starts (by simp))

end ScriptAnalysis

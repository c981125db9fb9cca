import ScriptAnalysis.Proofs.Scope.Places
import ScriptAnalysis.Proofs.Tree.Blames
import ScriptAnalysis.Proofs.Tree.Location

/-!
# Declared before a place

A variable is visible from the end of its declaration on.  An editor compares two starts instead:
that of the variable and that of the nearest declaration around the place, or of the place itself.
This comes to the same, except where a variable is declared within that nearest declaration or by
one farther out (`ScriptRecorded.starts_before_iff`).
-/

namespace ScriptAnalysis

/-! ### The starts of constructs -/

namespace Construct

variable {ast : Ast} {mk : MarkerId → Marker} {events p q : List Event}
  {c d : Construct} {o o' : Nat}

/-- A construct does not start behind one in it. -/
theorem Inside.offset_le (h : c.Inside d p q) (hc : c.In ast mk events) (ha : Ascending events)
    (ho : d.offset? = some o) (ho' : c.offset? = some o') : o ≤ o' := by
  have hsame : offsetsIn (c.whole ++ q ++ d.after) = offsetsIn (c.body ++ c.after) := by
    rw [h.after, offsetsIn_append, offsetsIn_append, whole, offsetsIn_wrap, offsetsIn_append,
      offsetsIn_append, List.append_assoc]
    rfl
  have hsplit : firstOffset (p ++ (c.whole ++ q ++ d.after)) = some o := by
    rw [← ho, offset?, h.body]
    simp only [List.append_assoc]
  rw [firstOffset_append] at hsplit
  cases hp : firstOffset p with
  | none =>
    rw [hp, Option.none_or, firstOffset_eq_head?, hsame, ← firstOffset_eq_head?] at hsplit
    exact Nat.le_of_eq (Option.some.inj (hsplit.symm.trans ho'))
  | some o₁ =>
    rw [hp, Option.some_or] at hsplit
    obtain rfl := Option.some.inj hsplit
    refine Nat.le_of_lt (hc.lt_offset ha ?_ ho')
    rw [h.before, offsetsIn_append]
    exact List.mem_append_right _ (mem_offsetsIn hp)

end Construct

/-- What a construct stands for starts with the first token behind its start that is no trivia. -/
theorem ParsedText.offset_of_construct {file : FileId} {text : String} {p : Parse} {r : Assembly}
    {parts : ScriptParts} {c : Construct} (h : ParsedText file text p r)
    (hs : ScriptRecorded p.ast p.transcript.marker p.transcript.events p.root parts)
    (hc : c.In p.ast p.transcript.marker p.transcript.events) (hroot : c.node ≠ p.root) :
    c.offset? = some (p.ast.span c.node).start := by
  have hsplit := hc.split
  obtain ⟨e, before, hbefore⟩ : ∃ e before, c.before = e :: before := by
    refine List.exists_cons_of_ne_nil fun hnil => hroot ?_
    rw [hnil, hs.events_eq] at hsplit
    have hmarker := Event.start.inj (List.cons.inj hsplit).1
    exact hs.standsFor_root (.inl (hmarker ▸ hc.means.node))
  have hsuffix : .start c.marker :: (c.body ++ .stop c.marker :: c.after) <:+
      p.transcript.events := ⟨c.before, hsplit.symm⟩
  have htail : .start c.marker :: (c.body ++ .stop c.marker :: c.after) <:+
      p.transcript.events.tail := by
    rw [hsplit, hbefore]
    exact ⟨before, rfl⟩
  obtain ⟨token, -, hnext, hoffset, -⟩ := h.next hsuffix
  have hstart := ((h.concerns htail).node _ hc.means.node).2
  rw [hnext] at hstart
  rw [hstart, ← hoffset, Construct.offset?, firstOffset_append, firstOffset_append]
  rfl

/-! ### The spans of variables -/

namespace Laid

variable {ast : Ast} {a b : ParsePoint} {d n v w : NodeId} {name : String}

/-- The statement that declares a variable has the span of the declaration. -/
theorem span_varDecl (h : Laid ast a [d] b) (hd : ast.data? d = some (.varDecl w)) :
    ast.span d = ast.span w ∧ Laid ast a [w] b ∧ ∃ v, ast.data? w = some (.varDeclExpr v) := by
  obtain ⟨_, _, _, _, -, -, hallots, -⟩ := h.of_data hd
  exact ⟨hallots.decl w rfl, (h.part hd (List.mem_singleton_self w)).1, hallots.formed⟩

/-- A variable with a name stands where its statement is laid out. -/
theorem solid_varDecl (h : Laid ast a [d] b) (hd : ast.data? d = some (.varDecl w))
    (hnamed : Ast.isNamed (ast.varName? w) = true) : a.text ≤ (ast.span w).start ∧
      (ast.span w).start < (ast.span w).stop ∧ (ast.span w).stop ≤ b.text := by
  obtain ⟨-, hlaid, v, hv⟩ := h.span_varDecl hd
  exact hlaid.solid hv (Ast.solid_of_isNamed hv hnamed)

/-- A declaration with an identifier in its initial value starts where it is laid out, and the
    identifier ends in it. -/
theorem varDecl_around (h : Laid ast a [d] b) (hd : ast.data? d = some (.varDecl w))
    (hname : ast.data? n = some (.identifier name)) (hin : ast.Contains d n) :
    ast.Contains w n ∧ a.text ≤ (ast.span d).start ∧ (ast.span n).stop ≤ (ast.span d).stop := by
  obtain ⟨hspan, hlaid, v, hv⟩ := h.span_varDecl hd
  have hw : ast.Contains w n := by
    cases hin with
    | here => cases hd.symm.trans hname
    | part hd' hk hin =>
      obtain rfl := Option.some.inj (hd.symm.trans hd')
      exact List.mem_singleton.mp hk ▸ hin
  refine ⟨hw, ?_⟩
  rw [hspan]
  cases hw with
  | here => cases hv.symm.trans hname
  | @part _ k _ _ hv' hk hin =>
    obtain rfl := Option.some.inj (hv.symm.trans hv')
    have hsolid : (NodeData.varDeclExpr v).isSolid = true := by
      have hinit : v.init.isSome = true :=
        Option.isSome_iff_exists.mpr ⟨k, by simpa [NodeData.parts] using hk⟩
      simp [NodeData.isSolid, hinit]
    obtain ⟨a', c, e, parts, hparts, harranged, hallots, -⟩ := hlaid.of_data hv
    have hn := ((hparts.mem (harranged.perm.mem_iff.mpr hk)).contains hin).solid hname rfl
    exact ⟨hallots.start hsolid, Nat.le_trans hn.2.2 (hallots.parts hsolid)⟩

end Laid

/-- A variable is not declared within the nearest declaration around a node, nor by one farther
    out. -/
def Ast.VarApart (ast : Ast) (root n v : NodeId) : Prop :=
  ∀ d, ast.NearestVar root n d → ast.Contains d v ∨ ast.Contains v n →
    ast.data? d = some (.varDecl v)

namespace ScriptRecorded

variable {file : FileId} {text : String} {p : Parse} {r : Assembly} {parts : ScriptParts}
  {n d e v x y : NodeId} {name : String}

section

variable (hs : ScriptRecorded p.ast p.transcript.marker p.transcript.events p.root parts)

include hs

/-- Whatever is in a script, but its class and the block of its statements, is in one of its
    members. -/
theorem member_of_contains (hx : p.ast.Contains p.root x) (hroot : x ≠ p.root)
    (hbody : x ≠ parts.body) : ∃ k ∈ parts.members, p.ast.Contains k x := by
  cases hx with
  | here => exact absurd rfl hroot
  | @part _ k _ _ hdata hk hx =>
    obtain rfl := Option.some.inj (hs.data_root.symm.trans hdata)
    have hparts : k ∈ parts.decl.imports ++ parts.decl.inner ∨ k = parts.body := by
      simpa [NodeData.parts, hs.script.fields, hs.script.methods, hs.script.body, or_comm,
        or_left_comm] using hk
    rcases hparts with hk | rfl
    · exact ⟨k, hs.perm.mem_iff.mpr (List.mem_append_left _ hk), hx⟩
    · cases hx with
      | here => exact absurd rfl hbody
      | part hdata' hk hx =>
        obtain rfl := Option.some.inj (hs.data_body.symm.trans hdata')
        exact ⟨_, hs.sublist.subset hk, hx⟩

/-- The statements and the expressions of a script are in one of its members. -/
theorem member_of_data {data : NodeData} (hx : p.ast.Contains p.root x)
    (hdata : p.ast.data? x = some data) (hclass : ∀ c, data ≠ .classDecl c)
    (hblock : ∀ stmts, data ≠ .block stmts) : ∃ k ∈ parts.members, p.ast.Contains k x := by
  refine hs.member_of_contains hx ?_ ?_
  · rintro rfl
    exact hclass _ (Option.some.inj (hdata.symm.trans hs.data_root))
  · rintro rfl
    exact hblock _ (Option.some.inj (hdata.symm.trans hs.data_body))

/-- A statement that declares a variable does not start behind what is in it. -/
theorem start_le_of_varAround (h : ParsedText file text p r)
    (hn : p.ast.Contains p.root n) (hname : p.ast.data? n = some (.identifier name))
    (hd : p.ast.VarAround p.root n d) : (p.ast.span d).start ≤ (p.ast.span n).start := by
  obtain ⟨⟨decl, hdecl⟩, hreached, hholds⟩ := hd
  obtain ⟨c, hc, rfl, hcdata, -⟩ := hs.construct_of_contains hn hname rfl
  obtain ⟨c', hc', rfl, hcdata', -⟩ := hs.construct_of_contains hreached hdecl rfl
  have hroot : c'.node ≠ p.root := by
    intro heq
    rw [heq, hs.data_root] at hdecl
    cases hdecl
  obtain ⟨x, y, hin⟩ := hs.inside_of_contains hc hc' hroot (by simp [hcdata'])
    (by rw [hcdata]; rfl) (fun heq => by
      rw [heq, hdecl] at hname
      cases hname) hholds
  have hnroot : c.node ≠ p.root := by
    intro heq
    rw [heq, hs.data_root] at hname
    cases hname
  exact hin.offset_le hc (ascending_of_scan h.tokens) (h.offset_of_construct hs hc' hroot)
    (h.offset_of_construct hs hc hnroot)

/-- By cases of how the declaration of the variable and the place lie to each other, and the
    declaration and the nearest one around the place. -/
theorem starts_before_iff (h : ParsedText file text p r) (hn : p.ast.Contains p.root n)
    (hname : p.ast.data? n = some (.identifier name)) (he : p.ast.Contains p.root e)
    (hv : p.ast.data? e = some (.varDecl v)) (hnamed : Ast.isNamed (p.ast.varName? v) = true)
    {location : Nat}
    (hlocation : (∃ d, p.ast.NearestVar p.root n d ∧ location = (p.ast.span d).start) ∨
      (∀ d, ¬ p.ast.VarAround p.root n d) ∧ location = (p.ast.span n).start)
    (hapart : (p.ast.span v).start < (p.ast.span n).start → p.ast.VarApart p.root n v) :
    (p.ast.span v).start < location ↔ (p.ast.span v).stop ≤ (p.ast.span n).start := by
  obtain ⟨k, hk, hkn⟩ := hs.member_of_data hn hname (by simp) (by simp)
  obtain ⟨l, hl, hle⟩ := hs.member_of_data he hv (by simp) (by simp)
  have hlaid := hs.recorded.laid
  -- What is known of the nearest declaration, wherever it is laid out.
  have hnearest : ∀ {d : NodeId}, p.ast.NearestVar p.root n d →
      (p.ast.span d).start ≤ (p.ast.span n).start ∧
      ∃ w, p.ast.data? d = some (.varDecl w) ∧ ∃ j ∈ parts.members, p.ast.Contains j d := by
    intro d hd
    obtain ⟨w, hw⟩ := hd.declares
    exact ⟨hs.start_le_of_varAround h hn hname hd.toVarAround, w, hw,
      hs.member_of_data hd.reached hw (by simp) (by simp)⟩
  have hev : p.ast.Contains e v := .part hv (List.mem_singleton_self v) (.here v)
  rcases hlaid.nested_or_apart hl hk hle hkn with hin | hin | ⟨b, ⟨hb, hb'⟩ | ⟨hb, hb'⟩⟩
  · -- The declaration is around the place.
    obtain ⟨hspan, -, -⟩ := ((hlaid.mem hl).contains hle).span_varDecl hv
    obtain ⟨hvn, -, hstop⟩ := ((hlaid.mem hl).contains hle).varDecl_around hv hname hin
    have hsolid := ((hlaid.mem hk).contains hkn).solid hname rfl
    have hnot : ¬ (p.ast.span v).stop ≤ (p.ast.span n).start := by
      rw [← hspan]
      omega
    refine iff_of_false (fun hlt => ?_) hnot
    rcases hlocation with ⟨d, hd, rfl⟩ | ⟨hnone, -⟩
    · obtain ⟨hstart, w, hw, j, hj, hjd⟩ := hnearest hd
      have hdv := hapart (Nat.lt_of_lt_of_le hlt hstart) d hd (.inr hvn)
      rw [(((hlaid.mem hj).contains hjd).span_varDecl hdv).1] at hlt
      exact Nat.lt_irrefl _ hlt
    · exact hnone e ⟨⟨v, hv⟩, he, hin⟩
  · -- An identifier has no parts.
    cases hin with
    | here => cases hv.symm.trans hname
    | part hname' hi _ =>
      obtain rfl := Option.some.inj (hname.symm.trans hname')
      cases hi
  · -- The declaration stands before the place.
    obtain ⟨-, hlt, hstop⟩ := hb.solid_varDecl hv hnamed
    have hsolid := hb'.solid hname rfl
    refine iff_of_true ?_ (by omega)
    rcases hlocation with ⟨d, hd, rfl⟩ | ⟨-, rfl⟩
    · obtain ⟨-, w, hw, j, hj, hjd⟩ := hnearest hd
      rcases hlaid.nested_or_apart hl hj hle hjd with hin | hin | ⟨b', ⟨hx, hx'⟩ | ⟨hx, hx'⟩⟩
      · exact absurd (hin.trans hd.holds) (hb.not_contains_behind hb')
      · -- Then it is the nearest declaration itself.
        have hdv := hapart (by omega) d hd (.inl (hin.trans hev))
        obtain ⟨hvn, -, -⟩ := ((hlaid.mem hj).contains hjd).varDecl_around hdv hname hd.holds
        exact absurd (hev.trans hvn) (hb.not_contains_behind hb')
      · have hvar := hx.solid_varDecl hv hnamed
        have haround := hx'.varDecl_around hw hname hd.holds
        omega
      · have hbefore := (hx.contains hd.holds).solid hname rfl
        have hvar := hx'.solid_varDecl hv hnamed
        omega
    · omega
  · -- The place stands before the declaration.
    have hsolid := hb.solid hname rfl
    have hvar := hb'.solid_varDecl hv hnamed
    refine iff_of_false ?_ (by omega)
    rcases hlocation with ⟨d, hd, rfl⟩ | ⟨-, rfl⟩
    · have hstart := (hnearest hd).1
      omega
    · omega

end

end ScriptRecorded

end ScriptAnalysis

import ScriptAnalysis.Proofs.Ast.Laid
import ScriptAnalysis.Proofs.Recording.Brackets
import ScriptAnalysis.Recording.Draft

/-!
# How the events of a parse record its nodes

The events of a construct and the nodes that were allocated for it have one structure: a marker
around events stands for a node around what they record.  Not every marker has a node, and not
every node has a marker: the events of a construct may hold markers that were dropped or that
report a fault, and a declaration or the body of a closure shares the marker of what is around it.

`Recorded ast mk a p ns b` says that the events `p` record the constructs `ns`, read from the point
`a` to the point `b` of a parse.  It says enough of each marker to find a node by its key: what it
stands for, that nothing of its kind starts with it where that matters, and where the name stands
that it declares.
-/

namespace ScriptAnalysis

/-! ### Events -/

/-- What stands before the first token that is no trivia. -/
def overture (events : List Event) : List Event :=
  events.takeWhile fun e => e.significantOffset?.isNone

theorem overture_subset (events : List Event) : overture events ⊆ events :=
  (List.takeWhile_sublist _).subset

theorem firstOffset_append (p q : List Event) :
    firstOffset (p ++ q) = (firstOffset p).or (firstOffset q) := List.findSome?_append

theorem overture_append_of_offset {p : List Event} (h : firstOffset p ≠ none) (q : List Event) :
    overture (p ++ q) = overture p := by
  induction p with
  | nil => exact absurd rfl h
  | cons e p ih =>
    unfold overture at ih ⊢
    rw [List.cons_append, List.takeWhile_cons, List.takeWhile_cons]
    cases he : e.significantOffset? with
    | some offset => simp
    | none =>
      have hp : firstOffset p ≠ none := by
        intro hnone
        unfold firstOffset at h hnone
        rw [List.findSome?_cons, he] at h
        exact h hnone
      simp only [Option.isNone_none, if_true, ih hp]

theorem overture_append_of_none {p : List Event} (h : firstOffset p = none) (q : List Event) :
    overture (p ++ q) = p ++ overture q := by
  unfold firstOffset at h
  refine List.takeWhile_append_of_pos fun e he => ?_
  rw [List.findSome?_eq_none_iff.mp h e he]
  rfl

/-- A marker with nothing but tokens in it. -/
def leafEvents (m : MarkerId) (ts : List Token) : List Event :=
  .start m :: ts.map .token ++ [.stop m]

theorem firstOffset_leafEvents (m : MarkerId) (ts : List Token) :
    firstOffset (leafEvents m ts) = firstOffset (ts.map .token) := by
  unfold leafEvents
  rw [List.cons_append, show Event.start m :: (ts.map .token ++ [.stop m]) =
    [.start m] ++ (ts.map .token ++ [.stop m]) from rfl, firstOffset_append, firstOffset_append]
  cases firstOffset (ts.map Event.token) <;> rfl

/-! ### Markers -/

/-- A marker with the events `p` in it became a node of the tree that stands for the node `n`. -/
structure Marker.Means (m : Marker) (n : NodeId) (data : NodeData) (p : List Event) : Prop where
  state : m.state = .done
  offset : m.offset = firstOffset p
  node : m.node = some n
  kind : m.kind = NodeKind.of? data
  known : NodeKind.of? data ≠ none
  /-- Only functions and classes declare a name. -/
  unnamed : (NodeKind.of? data).bind declaredNameKinds = none → m.nameMarker = none

/-- A declaration points to the marker of its name, among the events `p` in the marker `m` of the
    declaration, and points to none only if it goes without a name. -/
structure Names (ast : Ast) (mk : MarkerId → Marker) (m : MarkerId) (p : List Event)
    (name : String) (kind : NameKind) : Prop where
  nameless : (mk m).nameMarker = none → name = ""
  found : ∀ j, (mk m).nameMarker = some j → ∃ before ts after leaf,
    p = before ++ leafEvents j ts ++ after ∧ firstOffset (ts.map .token) ≠ none ∧
    ast.data? leaf = some (.name name kind) ∧ (mk j).Means leaf (.name name kind) (ts.map .token)

/-- What the name of a function introduces. -/
def FunDecl.nameKind (f : FunDecl) : NameKind := if f.isMethod then .method else .function

/-- A function points to its name, which starts at the offset that its declaration tells. -/
structure NamesFunction (ast : Ast) (mk : MarkerId → Marker) (m : MarkerId) (p : List Event)
    (f : FunDecl) : Prop extends Names ast mk m p f.name f.nameKind where
  named : ∃ j, (mk m).nameMarker = some j ∧ (mk j).offset = some f.nameOffset

/-- No marker among the events `p` stands for the node `n`. -/
def Unmarked (mk : MarkerId → Marker) (p : List Event) (n : NodeId) : Prop :=
  ∀ j, .start j ∈ p → (mk j).node ≠ some n

/-- What the events `p` in the marker `m` of a node look like.  Names and types are leaves, and the
    declaration in a statement and the body of a closure have no marker. -/
def NodeData.Shown (ast : Ast) (mk : MarkerId → Marker) (m : MarkerId) (p : List Event) :
    NodeData → Prop
  | .identifier _ => firstOffset p ≠ none ∧ ∃ ts : List Token, p = ts.map .token
  | .varDecl decl => Unmarked mk p decl ∧
    (∀ v, ast.data? decl = some (.varDeclExpr v) → (NodeData.varDeclExpr v).isSolid = true →
      firstOffset p ≠ none) ∧
    ∀ j, .start j ∈ overture p → (mk j).kind ≠ some .varDecl
  | .funDecl decl => Unmarked mk p decl ∧
    ∀ f, ast.data? decl = some (.funDeclExpr f) → NamesFunction ast mk m p f
  | .closure _ body _ => Unmarked mk p body
  | .classDecl c => c.isScript = false ∧ Names ast mk m p c.name .ofClass ∧
    (c.name = "" → (mk m).nameMarker = none)
  | .name _ _ | .type _ => False
  | _ => True

/-- Nodes that share the marker of what is around them. -/
def NodeData.isBare : NodeData → Bool
  | .block _ | .varDeclExpr _ | .funDeclExpr _ | .noop => true
  | _ => false

def NodeData.isNameOrType : NodeData → Bool
  | .name _ _ | .type _ => true
  | _ => false

inductive Recorded (ast : Ast) (mk : MarkerId → Marker) :
    ParsePoint → List Event → List NodeId → ParsePoint → Prop
  | nil {a b : ParsePoint} : a.Precedes b → Recorded ast mk a [] [] b
  | token {a b : ParsePoint} (t : Token) : a.Precedes b → Recorded ast mk a [.token t] [] b
  | append {a b c : ParsePoint} {p q : List Event} {ns ms : List NodeId} :
      Recorded ast mk a p ns b → Recorded ast mk b q ms c → Recorded ast mk a (p ++ q) (ns ++ ms) c
  /-- A marker without a node.  It is not that of a variable. -/
  | hidden {a b : ParsePoint} {p : List Event} {ns : List NodeId} {m : MarkerId} :
      (mk m).node = none → (mk m).kind ≠ some .varDecl → Recorded ast mk a p ns b →
      Recorded ast mk a (.start m :: p ++ [.stop m]) ns b
  /-- A name or a type, which is no part of another node. -/
  | leaf {a b : ParsePoint} {ts : List Token} {m : MarkerId} {n : Nat} {data : NodeData} :
      ast.data? n = some data → data.isNameOrType = true → (mk m).Means n data (ts.map .token) →
      firstOffset (ts.map .token) ≠ none → a.ids ≤ n → n < b.ids → a.Precedes b →
      Recorded ast mk a (leafEvents m ts) [] b
  | node {a b c d : ParsePoint} {p : List Event} {ns : List NodeId} {m : MarkerId} {n : Nat}
      {data : NodeData} :
      Recorded ast mk a p ns c → Laid ast b ns c → data.Arranged ns → Allots ast a b c n data d →
      (mk m).Means n data p → data.Shown ast mk m p →
      Recorded ast mk a (.start m :: p ++ [.stop m]) [n] d
  /-- A node that shares the marker of what is around it, after others in it. -/
  | bare {a b c : ParsePoint} {p : List Event} {ms : List NodeId} {n : Nat} {data : NodeData} :
      Recorded ast mk a p (ms ++ data.parts) b → data.isBare = true →
      (data.isSolid = true → ms = []) → Allots ast a a b n data c →
      Recorded ast mk a p (ms ++ [n]) c
  /-- Braces that turned out to be a plain block. -/
  | braces {a b : ParsePoint} {p : List Event} {m : MarkerId} {n body : Nat} {isBlock : Bool}
      {stmts : List NodeId} :
      Recorded ast mk a p [n] b → ast.data? n = some (.closure [] body isBlock) →
      ast.data? body = some (.block stmts) → (mk m).Means body (.block stmts) p →
      Recorded ast mk a (.start m :: p ++ [.stop m]) [body] b

namespace Recorded

variable {ast ast' : Ast} {mk mk' : MarkerId → Marker} {a b c : ParsePoint} {p q : List Event}
  {ns ms : List NodeId}

/-- The nodes that are recorded are laid out one after the other. -/
theorem laid (h : Recorded ast mk a p ns b) : Laid ast a ns b := by
  induction h with
  | nil h => exact .nil h
  | token t h => exact .nil h
  | append _ _ ih₁ ih₂ => exact ih₁.append ih₂
  | hidden _ _ _ ih => exact ih
  | leaf _ _ _ _ _ _ h => exact .nil h
  | node _ hlaid harranged hn _ _ _ => exact hlaid.single harranged hn
  | @bare a b c p ms n data _ hbare hms hn ih =>
    have harranged : data.Arranged data.parts := by
      cases data with
      | classDecl c => exact absurd hbare (by simp [NodeData.isBare])
      | _ => rfl
    by_cases hsolid : data.isSolid = true
    · obtain rfl := hms hsolid
      exact ih.single harranged hn
    · obtain ⟨b', hms', hparts⟩ := ih.split
      refine hms'.append (hparts.single harranged { hn with
        before := .refl b'
        start := fun h => absurd h hsolid
        lead := ?_ })
      rintro name value rfl
      cases hbare
  | braces _ hn hbody _ ih =>
    obtain ⟨b', c', d', data, parts, hparts, harranged, hallots, hd⟩ := Laid.single_iff.mp ih
    obtain rfl := Option.some.inj (hallots.found.symm.trans hn)
    obtain rfl : parts = [] ++ [_] := harranged
    exact (hparts.ge hallots.before).le (ParsePoint.Precedes.trans
      ⟨Nat.le_trans hallots.le_id (Nat.le_of_lt hallots.id_lt), hallots.text⟩ hd)

theorem precedes (h : Recorded ast mk a p ns b) : a.Precedes b := h.laid.precedes

theorem le (h : Recorded ast mk a p ns b) (hbc : b.Precedes c) : Recorded ast mk a p ns c := by
  simpa using h.append (.nil hbc)

theorem tokens {ts : List Token} (h : a.Precedes b) :
    Recorded ast mk a (ts.map .token) [] b := by
  induction ts with
  | nil => exact .nil h
  | cons t ts ih => exact append (.token t (.refl a)) ih

/-! ### Later states of a parse -/

theorem names_congr {m : MarkerId} {name : String} {kind : NameKind} (hast : ast.Extends ast')
    (hmk : ∀ j, .start j ∈ .start m :: p → mk' j = mk j) (h : Names ast mk m p name kind) :
    Names ast' mk' m p name kind := by
  have hm : mk' m = mk m := hmk m (by simp)
  refine ⟨fun hnone => h.nameless (hm ▸ hnone), fun j hmarker => ?_⟩
  obtain ⟨before, ts, after, leaf, rfl, hoffset, hdata, hmeans⟩ := h.found j (hm ▸ hmarker)
  have hj : mk' j = mk j := hmk j (by simp [leafEvents])
  exact ⟨before, ts, after, leaf, rfl, hoffset, hast.same hdata (by simp), hj ▸ hmeans⟩

theorem namesFunction_congr {m : MarkerId} {f : FunDecl} (hast : ast.Extends ast')
    (hmk : ∀ j, .start j ∈ .start m :: p → mk' j = mk j) (h : NamesFunction ast mk m p f) :
    NamesFunction ast' mk' m p f := by
  refine ⟨names_congr hast hmk h.toNames, ?_⟩
  obtain ⟨j, hmarker, hoffset⟩ := h.named
  obtain ⟨before, ts, after, leaf, rfl, -⟩ := h.found j hmarker
  have hm : mk' m = mk m := hmk m (by simp)
  have hj : mk' j = mk j := hmk j (by simp [leafEvents])
  exact ⟨j, hm ▸ hmarker, hj ▸ hoffset⟩

theorem unmarked_congr {n : NodeId} (hmk : ∀ j, .start j ∈ p → mk' j = mk j)
    (h : Unmarked mk p n) : Unmarked mk' p n := by
  intro j hj
  rw [hmk j hj]
  exact h j hj

theorem shown_congr {m : MarkerId} {data : NodeData} (hast : ast.Extends ast')
    (hmk : ∀ j, .start j ∈ .start m :: p → mk' j = mk j) (hformed : data.Formed ast)
    (h : data.Shown ast mk m p) : data.Shown ast' mk' m p := by
  have hinside : ∀ j, .start j ∈ p → mk' j = mk j := fun j hj => hmk j (List.mem_cons_of_mem _ hj)
  cases data with
  | varDecl decl =>
    obtain ⟨v, hdecl⟩ := hformed
    refine ⟨unmarked_congr hinside h.1, fun v' hv' => ?_, fun j hj => ?_⟩
    · rw [hast.same hdecl (by simp)] at hv'
      obtain rfl := NodeData.varDeclExpr.inj (Option.some.inj hv')
      exact h.2.1 _ hdecl
    · rw [hinside j (overture_subset p hj)]
      exact h.2.2 j hj
  | funDecl decl =>
    obtain ⟨f, hdecl⟩ := hformed
    refine ⟨unmarked_congr hinside h.1, fun f' hf' => ?_⟩
    rw [hast.same hdecl (by simp)] at hf'
    obtain rfl := NodeData.funDeclExpr.inj (Option.some.inj hf')
    exact namesFunction_congr hast hmk (h.2 _ hdecl)
  | closure params body isBlock => exact unmarked_congr hinside h
  | classDecl c => exact ⟨h.1, names_congr hast hmk h.2.1, hmk m (by simp) ▸ h.2.2⟩
  | identifier name => exact h
  | name text kind => exact h
  | type type => exact h
  | _ => trivial

theorem means_congr {m m' : Marker} {n : NodeId} {data data' : NodeData} (hm : m' = m)
    (halike : data.Alike data') (h : m.Means n data p) : m'.Means n data' p := by
  subst hm
  rcases halike with rfl | ⟨params, body, f, f', rfl, rfl⟩
  · exact h
  · exact ⟨h.state, h.offset, h.node, h.kind, h.known, h.unnamed⟩

theorem mono (h : Recorded ast mk a p ns b) (hast : ast.Extends ast')
    (hmk : ∀ j, .start j ∈ p → mk' j = mk j) : Recorded ast' mk' a p ns b := by
  induction h with
  | nil h => exact .nil h
  | token t h => exact .token t h
  | append _ _ ih₁ ih₂ =>
    exact .append (ih₁ fun j hj => hmk j (List.mem_append_left _ hj))
      (ih₂ fun j hj => hmk j (List.mem_append_right _ hj))
  | @hidden a b p ns m hnode hkind _ ih =>
    have hm : mk' m = mk m := hmk m (by simp)
    exact .hidden (hm ▸ hnode) (hm ▸ hkind) (ih fun j hj => hmk j (by simp [hj]))
  | @leaf a b ts m n data hdata hname hmeans hoffset hle hlt hab =>
    have hsame : ast'.data? n = some data := by
      refine hast.same hdata ?_
      rintro params body isBlock rfl
      cases hname
    refine .leaf hsame hname ?_ hoffset hle hlt hab
    rw [hmk m (by simp [leafEvents])]
    exact hmeans
  | @node a b c d p ns m n data hp hlaid harranged hn hmeans hshown ih =>
    have hmk' : ∀ j, .start j ∈ .start m :: p → mk' j = mk j := fun j hj => hmk j (by
      rcases List.mem_cons.mp hj with hj | hj
      · simp [hj]
      · simp [hj])
    obtain ⟨data', halike, hn'⟩ := hn.later hast
    refine .node (ih fun j hj => hmk' j (List.mem_cons_of_mem _ hj)) (hlaid.later hast)
      (halike.arranged harranged) hn' (means_congr (hmk' m (by simp)) halike hmeans) ?_
    have hshown' := shown_congr hast hmk' hn.formed hshown
    rcases halike with rfl | ⟨params, body, f, f', rfl, rfl⟩
    · exact hshown'
    · exact hshown'
  | @bare a b c p ms n data _ hbare hms hn ih =>
    obtain ⟨data', rfl | ⟨params, body, f, f', rfl, -⟩, hn'⟩ := hn.later hast
    · exact .bare (ih hmk) hbare hms hn'
    · cases hbare
  | @braces a b p m n body isBlock stmts _ hn hbody hmeans ih =>
    obtain ⟨-, data', hn', rfl | ⟨params, body', f, f', hdata, rfl⟩⟩ := hast n _ hn
    · refine .braces (ih fun j hj => hmk j (by simp [hj])) hn' (hast.same hbody (by simp)) ?_
      rw [hmk m (by simp)]
      exact hmeans
    · cases hdata
      refine .braces (ih fun j hj => hmk j (by simp [hj])) hn' (hast.same hbody (by simp)) ?_
      rw [hmk m (by simp)]
      exact hmeans

/-- The body of a closure that is recorded is a block. -/
theorem closure_body {n body : NodeId} {params : List NodeId} {isBlock : Bool}
    (h : Recorded ast mk a p ns b) (hn : n ∈ ns)
    (hdata : ast.data? n = some (.closure params body isBlock)) : ast.IsBlock body := by
  obtain ⟨b', c', d', data, parts, -, -, hallots, -⟩ := Laid.single_iff.mp (h.laid.mem hn)
  obtain rfl := Option.some.inj (hallots.found.symm.trans hdata)
  exact hallots.formed.2

/-- The events of constructs are in brackets. -/
theorem balanced (h : Recorded ast mk a p ns b) : Balanced p := by
  induction h with
  | nil => exact .nil
  | token t => exact Balanced.tokens [t]
  | append _ _ ih₁ ih₂ => exact ih₁.append ih₂
  | hidden _ _ _ ih => exact ih.wrap _
  | leaf => exact (Balanced.tokens _).wrap _
  | node _ _ _ _ _ _ ih => exact ih.wrap _
  | bare _ _ _ _ ih => exact ih
  | braces _ _ _ _ ih => exact ih.wrap _

/-- The nodes that markers stand for were allocated on the way. -/
theorem node_mem {j : MarkerId} {n : Nat} (h : Recorded ast mk a p ns b) (hj : .start j ∈ p)
    (hn : (mk j).node = some n) : a.ids ≤ n ∧ n < b.ids := by
  induction h with
  | nil => cases hj
  | token => simp at hj
  | append hp hq ih₁ ih₂ =>
    have h₁ := hp.precedes.ids
    have h₂ := hq.precedes.ids
    rcases List.mem_append.mp hj with hj | hj
    · have := ih₁ hj
      omega
    · have := ih₂ hj
      omega
  | hidden hnode _ _ ih =>
    rcases List.mem_append.mp hj with hj | hj
    · rcases List.mem_cons.mp hj with hj | hj
      · cases hj
        rw [hnode] at hn
        cases hn
      · exact ih hj
    · simp at hj
  | leaf _ _ hmeans _ hle hlt _ =>
    obtain rfl : j = _ := by simpa [leafEvents] using hj
    obtain rfl := Option.some.inj (hmeans.node.symm.trans hn)
    exact ⟨hle, hlt⟩
  | node hp _ _ hallots hmeans _ ih =>
    have h₁ := hp.precedes.ids
    have h₂ := hallots.le_id
    have h₃ := hallots.id_lt
    rcases List.mem_append.mp hj with hj | hj
    · rcases List.mem_cons.mp hj with hj | hj
      · cases hj
        obtain rfl := Option.some.inj (hmeans.node.symm.trans hn)
        omega
      · have := ih hj
        omega
    · simp at hj
  | bare _ _ _ hallots ih =>
    have := ih hj
    have h₂ := hallots.le_id
    have h₃ := hallots.id_lt
    omega
  | braces hp hdata _ hmeans ih =>
    rcases List.mem_append.mp hj with hj | hj
    · rcases List.mem_cons.mp hj with hj | hj
      · cases hj
        obtain rfl := Option.some.inj (hmeans.node.symm.trans hn)
        obtain ⟨b', c', d', data, parts, hparts, harranged, hallots, hd⟩ :=
          Laid.single_iff.mp hp.laid
        obtain rfl := Option.some.inj (hallots.found.symm.trans hdata)
        obtain rfl : parts = [] ++ [_] := harranged
        have hbody := hparts.mem_lt (List.mem_singleton_self _)
        have h₁ := hallots.before.ids
        have h₂ := hallots.le_id
        have h₃ := hallots.id_lt
        have h₄ := hd.ids
        omega
      · exact ih hj
    · simp at hj

/-- Nothing that was read stands for a node that is allocated next. -/
theorem unmarked (h : Recorded ast mk a p ns b) : Unmarked mk p b.ids :=
  fun _ hj hn => Nat.lt_irrefl _ (h.node_mem hj hn).2

end Recorded

end ScriptAnalysis

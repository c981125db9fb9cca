import ScriptAnalysis.Proofs.Tree.KeyPlaces

/-!
# The declaration around an identifier

Markers are in each other as their nodes are (`ScriptRecorded.contains_of_inside`,
`ScriptRecorded.inside_of_contains`), so the walk from an identifier to the root of the tree ends at
the nearest declaration of a variable that has the identifier among its nodes.  Its start is the
offset before which variables have to be declared to be visible there, and without a declaration
around it this is the start of the identifier (`Assembly.Placed.locationOf_cases`).
-/

namespace ScriptAnalysis

/-- A statement that declares a variable with the node `n` in it. -/
structure Ast.VarAround (ast : Ast) (root n d : NodeId) : Prop where
  declares : ∃ decl, ast.data? d = some (.varDecl decl)
  reached : ast.Contains root d
  holds : ast.Contains d n

/-- The nearest one. -/
structure Ast.NearestVar (ast : Ast) (root n d : NodeId) : Prop extends ast.VarAround root n d where
  nearest : ∀ d', ast.VarAround root n d' → ast.Contains d' d

/-- What is in the graph wherever its marker is among the events.  Names and types are not, and
    braces may have turned out to be a plain block. -/
def NodeData.IsKept (data : NodeData) : Prop :=
  data.isNameOrType = false ∧ ∀ params body isBlock, data ≠ .closure params body isBlock

theorem NodeData.isKept_varDecl (decl : NodeId) : (NodeData.varDecl decl).IsKept := ⟨rfl, by simp⟩

theorem NodeData.isKept_identifier (name : String) : (NodeData.identifier name).IsKept :=
  ⟨rfl, by simp⟩

namespace ScriptRecorded

variable {ast : Ast} {mk : MarkerId → Marker} {events : List Event} {root : Nat}
  {parts : ScriptParts} {c d : Construct} {p q : List Event} {name : String}

section

variable (h : ScriptRecorded ast mk events root parts)

include h

theorem member_reached {k : NodeId} (hk : k ∈ parts.members) : ast.Contains root k := by
  have hparts : ∀ {j : NodeId}, j ∈ (NodeData.classDecl parts.decl).parts → ast.Contains j k →
      ast.Contains root k := fun hj hin => .part h.data_root hj hin
  rcases List.mem_append.mp (h.perm.mem_iff.mp hk) with hk | hk
  · refine hparts ?_ (.here k)
    rcases List.mem_append.mp hk with hk | hk
    · simp [NodeData.parts, hk]
    · simp [NodeData.parts, hk]
  · refine hparts (j := parts.body) ?_ (.part h.data_body hk (.here k))
    simp [NodeData.parts, h.script.body]

/-- What a construct stands for is in the script. -/
theorem reached (hc : c.In ast mk events) (hdata : c.data.IsKept) : ast.Contains root c.node := by
  rcases h.start_cases hc.start_mem with hmarker | hinside
  · have hroot : c.node = root := h.standsFor_root (.inl (hmarker ▸ hc.means.node))
    rw [hroot]
    exact .here root
  · obtain ⟨k, hk, hin⟩ := h.recorded.held hinside hc.means.node hc.found hdata.1 hdata.2
    exact (h.member_reached hk).trans hin

/-- The events in a construct record its parts. -/
theorem filled (hc : c.In ast mk events) (hroot : c.node ≠ root) : c.Filled ast mk := by
  rcases h.start_cases hc.start_mem with hmarker | hinside
  · exact absurd (h.standsFor_root (.inl (hmarker ▸ hc.means.node))) hroot
  · obtain ⟨d, hmarker, hd, -, hfilled⟩ := h.recorded.construct hinside hc.means.node
    have hwiden := hd.widen [.start parts.marker] [.stop parts.marker]
    rw [show [.start parts.marker] ++ parts.inside ++ [.stop parts.marker] = events by
      rw [h.events_eq]; rfl] at hwiden
    obtain rfl := hwiden.eq_of_marker hc h.nodup hmarker
    exact hfilled

/-- A construct that stands in another one has its node there. -/
theorem contains_of_inside (hc : c.In ast mk events) (hd : d.In ast mk events)
    (hroot : d.node ≠ root) (hblock : ∀ stmts, d.data ≠ .block stmts) (hdata : c.data.IsKept)
    (hin : c.Inside d p q) : ast.Contains d.node c.node := by
  obtain ⟨a, b, ns, hrecorded, harranged⟩ := h.filled hd hroot hblock
  have hstart : .start c.marker ∈ d.body := by
    rw [hin.body]
    simp [Construct.whole]
  obtain ⟨k, hk, hcontains⟩ := hrecorded.held hstart hc.means.node hc.found hdata.1 hdata.2
  exact .part hd.found (harranged.perm.mem_iff.mp hk) hcontains

/-- A construct whose node is in that of another one stands there. -/
theorem inside_of_contains (hc : c.In ast mk events) (hd : d.In ast mk events)
    (hroot : d.node ≠ root) (hblock : ∀ stmts, d.data ≠ .block stmts)
    (hbare : c.data.isBare = false) (hne : c.node ≠ d.node) (hin : ast.Contains d.node c.node) :
    ∃ p q, c.Inside d p q := by
  obtain ⟨a, b, ns, hrecorded, harranged⟩ := h.filled hd hroot hblock
  generalize hn : c.node = n at hin hne
  cases hin with
  | here => exact absurd rfl hne
  | @part _ k _ data hfound hk hin =>
    obtain rfl := Option.some.inj (hd.found.symm.trans hfound)
    obtain ⟨⟨j, hj, hnode⟩, -⟩ :=
      hrecorded.marked (harranged.perm.mem_iff.mpr hk) hin (hn ▸ hc.found) hbare
    obtain ⟨e, rfl, he, -⟩ := hrecorded.construct hj hnode
    have hwiden := he.widen (d.before ++ [.start d.marker]) (.stop d.marker :: d.after)
    rw [show d.before ++ [.start d.marker] ++ d.body ++ .stop d.marker :: d.after = events by
      rw [hd.split]; simp] at hwiden
    have hnode' : c.node = e.node := hn.trans (Option.some.inj (hnode.symm.trans he.means.node))
    obtain rfl := h.eq_of_node hc hwiden hnode'
    exact ⟨e.before, e.after, he.eq, by simp [Construct.widen], rfl⟩

end

end ScriptRecorded

namespace Assembly.Placed

variable {file : FileId} {t : Transcript} {ast : Ast} {root : Nat} {parts : ScriptParts}
  {cs : List (Construct × TreeId)} {place : Nat → TreeId} {a : Analysis} {n : NodeId}
  {name : String}

/-- A script is no variable. -/
theorem ne_root {d : NodeId} {decl : NodeId} {r : Assembly}
    (h : r.Placed file t ast root parts cs place) (hd : ast.data? d = some (.varDecl decl)) :
    d ≠ root := by
  rintro rfl
  rw [h.script.data_root] at hd
  cases hd

/-- The location of an identifier is the start of the nearest statement around it that declares a
    variable, or its own start if there is none. -/
theorem locationOf_cases (h : a.assembly.Placed file t ast root parts cs place) (hast : a.ast = ast)
    (hn : ast.Contains root n) (hdata : ast.data? n = some (.identifier name)) :
    ∃ key, a.assembly.nodes[key]? = some n ∧ a.assembly.nodeKeys[n]? = some key ∧
      ((∃ d, ast.NearestVar root n d ∧ a.locationOf key = (ast.span d).start) ∨
        (∀ d, ¬ ast.VarAround root n d) ∧ a.locationOf key = (ast.span n).start) := by
  obtain ⟨c, hc, rfl, hcdata, -⟩ := h.script.construct_of_contains hn hdata rfl
  obtain ⟨hnode, -, hkey⟩ := h.of_identifier hc hcdata
  refine ⟨c.key file, hnode, hkey, ?_⟩
  have hkind : (c.key file).kind = .identifier := by
    rw [Construct.key, hcdata]
    rfl
  have hlocation : a.locationOf (c.key file) =
      (((a.declarationAround? (c.key file)).or (some c.node)).map fun node =>
        (ast.span node).start).getD (c.key file).offset := by
    unfold Analysis.locationOf Analysis.lookup
    rw [if_pos hkind, hnode, hast]
    cases a.declarationAround? (c.key file) <;> rfl
  -- A statement around the identifier is that of a construct around it.
  have haround : ∀ d, ast.VarAround root c.node d → ∃ e : Construct, e.In ast t.marker t.events ∧
      (∃ decl, e.data = .varDecl decl) ∧ (∃ p q, c.Inside e p q) ∧ e.node = d := by
    rintro d ⟨⟨decl, hdecl⟩, hreached, hholds⟩
    obtain ⟨e, he, rfl, hedata, -⟩ := h.script.construct_of_contains hreached hdecl rfl
    refine ⟨e, he, ⟨decl, hedata⟩, ?_, rfl⟩
    refine h.script.inside_of_contains hc he (h.ne_root hdecl) (by simp [hedata])
      (by rw [hcdata]; rfl) (fun heq => ?_) hholds
    rw [heq, hdecl] at hdata
    cases hdata
  have hholds : ∀ e : Construct, e.In ast t.marker t.events → (∃ decl, e.data = .varDecl decl) →
      (∃ p q, c.Inside e p q) → ast.VarAround root c.node e.node := by
    rintro e he ⟨decl, hedata⟩ ⟨p, q, hin⟩
    have hdecl : ast.data? e.node = some (.varDecl decl) := he.found.trans (congrArg some hedata)
    refine ⟨⟨decl, hdecl⟩, h.script.reached he (hedata ▸ NodeData.isKept_varDecl decl), ?_⟩
    exact h.script.contains_of_inside hc he (h.ne_root hdecl) (by simp [hedata])
      (hcdata ▸ NodeData.isKept_identifier name) hin
  rcases h.declarationAround?_cases rfl hc hcdata with
    ⟨d, hd, ⟨decl, hddata⟩, hin, hnearest, hdecl⟩ | ⟨hnone, hdecl⟩
  · refine .inl ⟨d.node, ⟨hholds d hd ⟨decl, hddata⟩ hin, fun d' hd' => ?_⟩,
      by rw [hlocation, hdecl]; rfl⟩
    obtain ⟨e, he, ⟨decl', hedata⟩, hin', rfl⟩ := haround d' hd'
    have hle := hnearest e he ⟨decl', hedata⟩ hin'
    by_cases heq : e = d
    · rw [heq]
      exact .here d.node
    · obtain ⟨x, y, hx⟩ := hin
      obtain ⟨x', y', hx'⟩ := hin'
      have hlt := hx.lt
      have hlt' := hx'.lt
      have hstart := c.start_lt_stop
      have hmarker : d.marker ≠ e.marker := fun hmarker =>
        heq (hd.eq_of_marker he h.script.nodup hmarker).symm
      rcases hd.nested_or_apart he hmarker with ⟨p, q, hp⟩ | ⟨p, q, hp⟩ | ⟨p, hp⟩ | ⟨p, hp⟩
      · exact absurd hp.lt.1 (Nat.not_lt_of_le hle)
      · exact h.script.contains_of_inside hd he (h.ne_root hd'.declares.choose_spec)
          (by simp [hedata]) (hddata ▸ NodeData.isKept_varDecl decl) hp
      · have := hp.le
        omega
      · have := hp.le
        omega
  · refine .inr ⟨fun d hd => ?_, by rw [hlocation, hdecl]; rfl⟩
    obtain ⟨e, he, hedata, hin, -⟩ := haround d hd
    exact hnone e he hedata hin

end Assembly.Placed

end ScriptAnalysis

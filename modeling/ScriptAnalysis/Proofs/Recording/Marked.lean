import ScriptAnalysis.Proofs.Recording.Nesting

/-!
# The constructs of a parse

Every marker with a node among the events of a parse belongs to a `Construct`, and
`Construct.Displayed` tells what is in it.  No two markers stand for one node.  That also holds of a
declaration, which has no marker of its own but shares the marker of the statement around it
(`Marker.StandsFor`).
-/

namespace ScriptAnalysis

/-- The declaration that shares the marker of the statement around it. -/
def NodeData.declared? : NodeData → Option NodeId
  | .varDecl decl | .funDecl decl => some decl
  | _ => none

/-- The declaration of a variable or a function. -/
def Ast.IsDecl (ast : Ast) (n : NodeId) : Prop :=
  (∃ v, ast.data? n = some (.varDeclExpr v)) ∨ ∃ f, ast.data? n = some (.funDeclExpr f)

theorem Ast.IsDecl.not_block {ast : Ast} {n : NodeId} (h : ast.IsDecl n) {stmts : List NodeId} :
    ast.data? n ≠ some (.block stmts) := by
  rcases h with ⟨v, hv⟩ | ⟨f, hf⟩
  · simp [hv]
  · simp [hf]

theorem Ast.IsDecl.declared? {ast : Ast} {n : NodeId} (h : ast.IsDecl n) :
    (ast.data? n).bind NodeData.declared? = none := by
  rcases h with ⟨v, hv⟩ | ⟨f, hf⟩
  · rw [hv]
    rfl
  · rw [hf]
    rfl

/-- A marker stands for its node and, if that declares something, for the declaration. -/
def Marker.StandsFor (ast : Ast) (m : Marker) (x : NodeId) : Prop :=
  m.node = some x ∨ ∃ n, m.node = some n ∧ (ast.data? n).bind NodeData.declared? = some x

/-- What is in a construct: tokens only, or what its node requires. -/
def Construct.Displayed (ast : Ast) (mk : MarkerId → Marker) (c : Construct) : Prop :=
  (c.data.isNameOrType = true ∧ firstOffset c.body ≠ none ∧
    ∃ ts : List Token, c.body = ts.map .token) ∨
    c.data.Shown ast mk c.marker c.body

/-- The events in a construct record its parts, unless it is the block of braces. -/
def Construct.Filled (ast : Ast) (mk : MarkerId → Marker) (c : Construct) : Prop :=
  (∀ stmts, c.data ≠ .block stmts) →
    ∃ a b ns, Recorded ast mk a c.body ns b ∧ c.data.Arranged ns

namespace Recorded

variable {ast : Ast} {mk : MarkerId → Marker} {a b : ParsePoint} {p : List Event} {ns : List NodeId}
  {i j m : MarkerId} {n x decl : Nat}

/-- Every marker with a node belongs to a construct. -/
theorem construct (h : Recorded ast mk a p ns b) (hm : .start m ∈ p) (hn : (mk m).node = some n) :
    ∃ c : Construct, c.marker = m ∧ c.In ast mk p ∧ c.Displayed ast mk ∧ c.Filled ast mk := by
  have hself : ∀ {m : MarkerId} {n : Nat} {data : NodeData} {p : List Event}, Balanced p →
      (mk m).Means n data p → ast.data? n = some data →
      (⟨m, n, data, [], p, []⟩ : Construct).In ast mk (.start m :: p ++ [.stop m]) :=
    fun hbalanced hmeans hdata => ⟨by simp [Construct.whole], hbalanced, hmeans, hdata⟩
  have hwrap : ∀ {m : MarkerId} {p : List Event} {j : MarkerId},
      (∃ c : Construct, c.marker = j ∧ c.In ast mk p ∧ c.Displayed ast mk ∧ c.Filled ast mk) →
      ∃ c : Construct, c.marker = j ∧ c.In ast mk (.start m :: p ++ [.stop m]) ∧
        c.Displayed ast mk ∧ c.Filled ast mk := by
    rintro m p j ⟨c, hc, hin, hrest⟩
    exact ⟨c.widen [.start m] [.stop m], hc, hin.widen [.start m] [.stop m], hrest⟩
  induction h with
  | nil => cases hm
  | token => simp at hm
  | @append a b c p q ns ms _ _ ih₁ ih₂ =>
    rcases List.mem_append.mp hm with hm | hm
    · obtain ⟨c, hc, hin, hrest⟩ := ih₁ hm
      exact ⟨c.widen [] q, hc, hin.widen [] q, hrest⟩
    · obtain ⟨c, hc, hin, hrest⟩ := ih₂ hm
      have hwiden := hin.widen p []
      rw [List.append_nil] at hwiden
      exact ⟨c.widen p [], hc, hwiden, hrest⟩
  | hidden hnode _ _ ih =>
    rcases List.mem_append.mp hm with hm | hm
    · rcases List.mem_cons.mp hm with hm | hm
      · cases hm
        rw [hnode] at hn
        cases hn
      · exact hwrap (ih hm)
    · simp at hm
  | @leaf a b ts k n data hdata hname hmeans hoffset _ _ _ =>
    obtain rfl : m = k := by simpa [leafEvents] using hm
    refine ⟨⟨m, n, data, [], ts.map .token, []⟩, rfl, hself (.tokens ts) hmeans hdata,
      .inl ⟨hname, hoffset, ts, rfl⟩, fun _ => ⟨a, a, [], .tokens (.refl a), ?_⟩⟩
    cases data with
    | name | type => rfl
    | _ => cases hname
  | @node a b c d p ns k n data hp _ harranged hallots hmeans hshown ih =>
    rcases List.mem_append.mp hm with hm | hm
    · rcases List.mem_cons.mp hm with hm | hm
      · cases hm
        exact ⟨_, rfl, hself hp.balanced hmeans hallots.found, .inr hshown,
          fun _ => ⟨a, c, ns, hp, harranged⟩⟩
      · exact hwrap (ih hm)
    · simp at hm
  | bare _ _ _ _ ih => exact ih hm
  | braces hp _ hbody hmeans ih =>
    rcases List.mem_append.mp hm with hm | hm
    · rcases List.mem_cons.mp hm with hm | hm
      · cases hm
        exact ⟨_, rfl, hself hp.balanced hmeans hbody, .inr trivial,
          fun hblock => absurd rfl (hblock _)⟩
      · exact hwrap (ih hm)
    · simp at hm

/-- The body of a closure that was recorded has no marker. -/
theorem body_unmarked {params : List NodeId} {body : Nat} {isBlock : Bool}
    (h : Recorded ast mk a p ns b) (hn : n ∈ ns)
    (hdata : ast.data? n = some (.closure params body isBlock)) : Unmarked mk p body := by
  have hbounds : ∀ {a b : ParsePoint} {p : List Event} {ns : List NodeId},
      Recorded ast mk a p ns b → n ∈ ns → a.ids ≤ body ∧ body < n ∧ n < b.ids := by
    intro a b p ns h hn
    obtain ⟨hlaid, hlt⟩ := (h.laid.mem hn).part (k := body) hdata (by simp [NodeData.parts])
    exact ⟨(hlaid.mem_lt (List.mem_singleton_self _)).1, hlt, (h.laid.mem_lt hn).2⟩
  induction h with
  | nil => cases hn
  | token => cases hn
  | append hp hq ih₁ ih₂ =>
    intro j hj hbody
    rcases List.mem_append.mp hn with hn | hn
    · have hlt := hbounds hp hn
      rcases List.mem_append.mp hj with hj | hj
      · exact ih₁ hn j hj hbody
      · have := hq.node_mem hj hbody
        omega
    · have hlt := hbounds hq hn
      rcases List.mem_append.mp hj with hj | hj
      · have := hp.node_mem hj hbody
        omega
      · exact ih₂ hn j hj hbody
  | hidden hnode _ _ ih =>
    intro j hj hbody
    rcases List.mem_append.mp hj with hj | hj
    · rcases List.mem_cons.mp hj with hj | hj
      · cases hj
        rw [hnode] at hbody
        cases hbody
      · exact ih hn j hj hbody
    · simp at hj
  | leaf => cases hn
  | node hp hlaid harranged hallots hmeans hshown _ =>
    obtain rfl := List.mem_singleton.mp hn
    obtain rfl := Option.some.inj (hallots.found.symm.trans hdata)
    intro j hj hbody
    rcases List.mem_append.mp hj with hj | hj
    · rcases List.mem_cons.mp hj with hj | hj
      · cases hj
        obtain rfl := Option.some.inj (hmeans.node.symm.trans hbody)
        exact Nat.lt_irrefl _ (hbounds (.node hp hlaid harranged hallots hmeans hshown) hn).2.1
      · exact hshown j hj hbody
    · simp at hj
  | bare hp hbare _ hallots ih =>
    rcases List.mem_append.mp hn with hn | hn
    · exact ih (List.mem_append_left _ hn)
    · obtain rfl := List.mem_singleton.mp hn
      obtain rfl := Option.some.inj (hallots.found.symm.trans hdata)
      cases hbare
  | braces _ _ hblock =>
    obtain rfl := List.mem_singleton.mp hn
    rw [hblock] at hdata
    cases hdata

theorem parts_of_declared? {data : NodeData} (hdecl : data.declared? = some decl) :
    data.parts = [decl] := by
  cases data with
  | varDecl d => exact congrArg ([·]) (Option.some.inj hdecl)
  | funDecl d => exact congrArg ([·]) (Option.some.inj hdecl)
  | _ => cases hdecl

/-- A declaration is the declaration of a variable or a function. -/
theorem isDecl_of_formed (hformed : ∀ data, ast.data? n = some data → data.Formed ast)
    (hdecl : (ast.data? n).bind NodeData.declared? = some decl) : ast.IsDecl decl := by
  obtain ⟨data, hdata, hdecl⟩ := Option.bind_eq_some_iff.mp hdecl
  have hform := hformed data hdata
  cases data with
  | varDecl d =>
    obtain rfl := Option.some.inj hdecl
    exact .inl hform
  | funDecl d =>
    obtain rfl := Option.some.inj hdecl
    exact .inr hform
  | _ => cases hdecl

/-- Every node in what was recorded has a marker, unless it shares that of what is around it. -/
theorem marked {k : NodeId} {data : NodeData} (h : Recorded ast mk a p ns b) (hk : k ∈ ns)
    (hn : ast.Contains k n) (hdata : ast.data? n = some data) (hbare : data.isBare = false) :
    (∃ j, .start j ∈ p ∧ (mk j).node = some n) ∧ data.Formed ast := by
  induction h generalizing k with
  | nil => cases hk
  | token => cases hk
  | append _ _ ih₁ ih₂ =>
    rcases List.mem_append.mp hk with hk | hk
    · obtain ⟨⟨j, hj, hnode⟩, hformed⟩ := ih₁ hk hn
      exact ⟨⟨j, List.mem_append_left _ hj, hnode⟩, hformed⟩
    · obtain ⟨⟨j, hj, hnode⟩, hformed⟩ := ih₂ hk hn
      exact ⟨⟨j, List.mem_append_right _ hj, hnode⟩, hformed⟩
  | hidden _ _ _ ih =>
    obtain ⟨⟨j, hj, hnode⟩, hformed⟩ := ih hk hn
    exact ⟨⟨j, by simp [hj], hnode⟩, hformed⟩
  | leaf => cases hk
  | @node a b c d p ns m n₀ data₀ _ _ harranged hallots hmeans _ ih =>
    obtain rfl := List.mem_singleton.mp hk
    cases hn with
    | here =>
      obtain rfl := Option.some.inj (hallots.found.symm.trans hdata)
      exact ⟨⟨m, by simp, hmeans.node⟩, hallots.formed⟩
    | part hdata₀ hk' hn =>
      obtain rfl := Option.some.inj (hallots.found.symm.trans hdata₀)
      obtain ⟨⟨j, hj, hnode⟩, hformed⟩ := ih (harranged.perm.mem_iff.mpr hk') hn
      exact ⟨⟨j, by simp [hj], hnode⟩, hformed⟩
  | bare _ hbare₀ _ hallots ih =>
    rcases List.mem_append.mp hk with hk | hk
    · exact ih (List.mem_append_left _ hk) hn
    · obtain rfl := List.mem_singleton.mp hk
      cases hn with
      | here =>
        obtain rfl := Option.some.inj (hallots.found.symm.trans hdata)
        rw [hbare] at hbare₀
        cases hbare₀
      | part hdata₀ hk' hn =>
        obtain rfl := Option.some.inj (hallots.found.symm.trans hdata₀)
        exact ih (List.mem_append_right _ hk') hn
  | braces _ hclosure _ _ ih =>
    obtain rfl := List.mem_singleton.mp hk
    have hpart : ast.Contains _ n := .part hclosure (by simp [NodeData.parts]) hn
    obtain ⟨⟨j, hj, hnode⟩, hformed⟩ := ih (List.mem_singleton_self _) hpart
    exact ⟨⟨j, by simp [hj], hnode⟩, hformed⟩

/-- A declaration was allocated on the way, and it is not among what was recorded, because its
    statement is around it. -/
theorem declared (h : Recorded ast mk a p ns b) (hj : .start j ∈ p) (hn : (mk j).node = some n)
    (hdecl : (ast.data? n).bind NodeData.declared? = some decl) :
    a.ids ≤ decl ∧ decl < b.ids ∧ decl ∉ ns ∧ ∀ data, ast.data? n = some data →
      data.Formed ast := by
  induction h with
  | nil => cases hj
  | token => simp at hj
  | append hp hq ih₁ ih₂ =>
    have h₁ := hp.precedes.ids
    have h₂ := hq.precedes.ids
    rcases List.mem_append.mp hj with hj | hj
    · obtain ⟨hle, hlt, hnot, hformed⟩ := ih₁ hj
      refine ⟨hle, by omega, fun hmem => ?_, hformed⟩
      rcases List.mem_append.mp hmem with hmem | hmem
      · exact hnot hmem
      · have := hq.laid.mem_lt hmem
        omega
    · obtain ⟨hle, hlt, hnot, hformed⟩ := ih₂ hj
      refine ⟨by omega, hlt, fun hmem => ?_, hformed⟩
      rcases List.mem_append.mp hmem with hmem | hmem
      · have := hp.laid.mem_lt hmem
        omega
      · exact hnot hmem
  | hidden hnode _ _ ih =>
    rcases List.mem_append.mp hj with hj | hj
    · rcases List.mem_cons.mp hj with hj | hj
      · cases hj
        rw [hnode] at hn
        cases hn
      · exact ih hj
    · simp at hj
  | @leaf a b ts m n data hdata hname hmeans =>
    obtain rfl : j = m := by simpa [leafEvents] using hj
    obtain rfl := Option.some.inj (hmeans.node.symm.trans hn)
    rw [hdata, Option.bind_some] at hdecl
    cases data with
    | varDecl => cases hname
    | funDecl => cases hname
    | _ => cases hdecl
  | node hp hlaid harranged hallots hmeans _ ih =>
    have h₁ := hallots.before.ids
    have h₂ := hallots.le_id
    have h₃ := hallots.id_lt
    rcases List.mem_append.mp hj with hj | hj
    · rcases List.mem_cons.mp hj with hj | hj
      · cases hj
        obtain rfl := Option.some.inj (hmeans.node.symm.trans hn)
        rw [hallots.found, Option.bind_some] at hdecl
        have hparts := parts_of_declared? hdecl
        have hmem := hlaid.mem_lt (n := decl) (harranged.perm.mem_iff.mpr (by rw [hparts]; simp))
        refine ⟨by omega, by omega, fun heq => ?_, fun data' hdata' => ?_⟩
        · have := List.mem_singleton.mp heq
          omega
        · obtain rfl := Option.some.inj (hallots.found.symm.trans hdata')
          exact hallots.formed
      · obtain ⟨hle, hlt, -, hformed⟩ := ih hj
        refine ⟨hle, by omega, fun heq => ?_, hformed⟩
        have := List.mem_singleton.mp heq
        omega
    · simp at hj
  | bare _ _ _ hallots ih =>
    obtain ⟨hle, hlt, hnot, hformed⟩ := ih hj
    have h₂ := hallots.le_id
    have h₃ := hallots.id_lt
    refine ⟨hle, by omega, fun hmem => ?_, hformed⟩
    rcases List.mem_append.mp hmem with hmem | hmem
    · exact hnot (List.mem_append_left _ hmem)
    · have := List.mem_singleton.mp hmem
      omega
  | braces _ _ hblock hmeans ih =>
    rcases List.mem_append.mp hj with hj | hj
    · rcases List.mem_cons.mp hj with hj | hj
      · cases hj
        obtain rfl := Option.some.inj (hmeans.node.symm.trans hn)
        rw [hblock] at hdecl
        cases hdecl
      · obtain ⟨hle, hlt, -, hformed⟩ := ih hj
        refine ⟨hle, hlt, fun heq => ?_, hformed⟩
        obtain rfl := List.mem_singleton.mp heq
        exact (isDecl_of_formed hformed hdecl).not_block hblock
    · simp at hj

theorem isDecl (h : Recorded ast mk a p ns b) (hj : .start j ∈ p) (hn : (mk j).node = some n)
    (hdecl : (ast.data? n).bind NodeData.declared? = some decl) : ast.IsDecl decl :=
  isDecl_of_formed (h.declared hj hn hdecl).2.2.2 hdecl

/-- What a marker stands for was allocated on the way. -/
theorem standsFor_mem (h : Recorded ast mk a p ns b) (hj : .start j ∈ p)
    (hx : (mk j).StandsFor ast x) : a.ids ≤ x ∧ x < b.ids := by
  rcases hx with hx | ⟨n, hn, hdecl⟩
  · exact h.node_mem hj hx
  · obtain ⟨hle, hlt, -⟩ := h.declared hj hn hdecl
    exact ⟨hle, hlt⟩

/-- No two markers stand for one node. -/
theorem standsFor_inj (h : Recorded ast mk a p ns b) (hi : .start i ∈ p) (hj : .start j ∈ p)
    (hx : (mk i).StandsFor ast x) (hx' : (mk j).StandsFor ast x) : i = j := by
  -- A marker around others stands for none of their nodes.
  have hwrap : ∀ {m : MarkerId} {p : List Event},
      (∀ k, .start k ∈ p → (mk m).StandsFor ast x → ¬ (mk k).StandsFor ast x) →
      (.start i ∈ p → .start j ∈ p → i = j) →
      .start i ∈ Event.start m :: p ++ [.stop m] → .start j ∈ Event.start m :: p ++ [.stop m] →
      i = j := by
    intro m p hself ih hi hj
    have hcases : ∀ {k : MarkerId}, .start k ∈ Event.start m :: p ++ [.stop m] →
        k = m ∨ .start k ∈ p := by
      intro k hk
      simpa using hk
    rcases hcases hi with hi | hi
    · rcases hcases hj with hj | hj
      · exact hi.trans hj.symm
      · exact absurd hx' (hself j hj (hi ▸ hx))
    · rcases hcases hj with hj | hj
      · exact absurd hx (hself i hi (hj ▸ hx'))
      · exact ih hi hj
  induction h with
  | nil => cases hi
  | token => simp at hi
  | append hp hq ih₁ ih₂ =>
    rcases List.mem_append.mp hi with hi | hi
    · rcases List.mem_append.mp hj with hj | hj
      · exact ih₁ hi hj
      · have h₁ := hp.standsFor_mem hi hx
        have h₂ := hq.standsFor_mem hj hx'
        omega
    · rcases List.mem_append.mp hj with hj | hj
      · have h₁ := hq.standsFor_mem hi hx
        have h₂ := hp.standsFor_mem hj hx'
        omega
      · exact ih₂ hi hj
  | hidden hnode _ hp ih =>
    refine hwrap (fun k _ hself _ => ?_) ih hi hj
    rcases hself with hself | ⟨n, hself, -⟩ <;>
    · rw [hnode] at hself
      cases hself
  | leaf =>
    obtain rfl : i = _ := by simpa [leafEvents] using hi
    obtain rfl : j = _ := by simpa [leafEvents] using hj
    rfl
  | @node a b c d p ns m n data hp hlaid harranged hallots hmeans hshown ih =>
    refine hwrap (fun k hk hself hinner => ?_) ih hi hj
    have hlt := (hp.standsFor_mem hk hinner).2
    rcases hself with hself | ⟨n', hself, hdecl⟩
    · obtain rfl := Option.some.inj (hmeans.node.symm.trans hself)
      exact absurd hallots.le_id (Nat.not_le.mpr hlt)
    · obtain rfl := Option.some.inj (hmeans.node.symm.trans hself)
      rw [hallots.found, Option.bind_some] at hdecl
      have hparts := parts_of_declared? hdecl
      have hmem : x ∈ ns := harranged.perm.mem_iff.mpr (by rw [hparts]; simp)
      have hunmarked : Unmarked mk p x := by
        cases data with
        | varDecl d =>
          obtain rfl := Option.some.inj hdecl
          exact hshown.1
        | funDecl d =>
          obtain rfl := Option.some.inj hdecl
          exact hshown.1
        | _ => cases hdecl
      rcases hinner with hinner | ⟨n', hinner, hdecl'⟩
      · exact hunmarked k hk hinner
      · exact (hp.declared hk hinner hdecl').2.2.1 hmem
  | bare _ _ _ _ ih => exact ih hi hj
  | braces hp hdata hblock hmeans ih =>
    refine hwrap (fun k hk hself hinner => ?_) ih hi hj
    rcases hself with hself | ⟨n', hself, hdecl⟩
    · obtain rfl := Option.some.inj (hmeans.node.symm.trans hself)
      rcases hinner with hinner | ⟨n', hinner, hdecl⟩
      · exact hp.body_unmarked (by simp) hdata k hk hinner
      · exact (hp.isDecl hk hinner hdecl).not_block hblock
    · obtain rfl := Option.some.inj (hmeans.node.symm.trans hself)
      rw [hblock] at hdecl
      cases hdecl

/-- The markers of variables have nodes. -/
theorem node_of_varDecl (h : Recorded ast mk a p ns b) (hm : .start m ∈ p)
    (hkind : (mk m).kind = some .varDecl) : (mk m).node ≠ none := by
  have hwrap : ∀ {k : MarkerId} {p : List Event}, (m = k → (mk m).node ≠ none) →
      (.start m ∈ p → (mk m).node ≠ none) → .start m ∈ Event.start k :: p ++ [.stop k] →
      (mk m).node ≠ none := by
    intro k p hself ih hm
    rcases List.mem_cons.mp (show _ ∈ Event.start k :: (p ++ [.stop k]) from hm) with hm | hm
    · exact hself (Event.start.inj hm)
    · exact ih (by simpa using hm)
  induction h with
  | nil => cases hm
  | token => simp at hm
  | append _ _ ih₁ ih₂ => exact (List.mem_append.mp hm).elim ih₁ ih₂
  | hidden _ hother _ ih =>
    refine hwrap (fun heq => ?_) ih hm
    exact absurd (heq ▸ hkind) hother
  | leaf _ _ hmeans =>
    refine hwrap (fun heq => ?_) (by simp) hm
    rw [heq, hmeans.node]
    exact Option.some_ne_none _
  | node _ _ _ _ hmeans _ ih =>
    refine hwrap (fun heq => ?_) ih hm
    rw [heq, hmeans.node]
    exact Option.some_ne_none _
  | bare _ _ _ _ ih => exact ih hm
  | braces _ _ _ hmeans ih =>
    refine hwrap (fun heq => ?_) ih hm
    rw [heq, hmeans.node]
    exact Option.some_ne_none _

/-- What a marker stands for is in one of the constructs, unless it is a name, a type, or braces:
    those may have turned out to be a plain block, and then only the block is left. -/
theorem held {data : NodeData} (h : Recorded ast mk a p ns b) (hj : .start j ∈ p)
    (hn : (mk j).node = some n) (hdata : ast.data? n = some data)
    (hname : data.isNameOrType = false)
    (hclosure : ∀ params body isBlock, data ≠ .closure params body isBlock) :
    ∃ k ∈ ns, ast.Contains k n := by
  induction h with
  | nil => cases hj
  | token => simp at hj
  | append _ _ ih₁ ih₂ =>
    rcases List.mem_append.mp hj with hj | hj
    · obtain ⟨k, hk, hin⟩ := ih₁ hj
      exact ⟨k, List.mem_append_left _ hk, hin⟩
    · obtain ⟨k, hk, hin⟩ := ih₂ hj
      exact ⟨k, List.mem_append_right _ hk, hin⟩
  | hidden hnode _ _ ih =>
    rcases List.mem_append.mp hj with hj | hj
    · rcases List.mem_cons.mp hj with hj | hj
      · cases hj
        rw [hnode] at hn
        cases hn
      · exact ih hj
    · simp at hj
  | @leaf a b ts m n' data' hdata' hname' hmeans =>
    obtain rfl : j = m := by simpa [leafEvents] using hj
    obtain rfl := Option.some.inj (hmeans.node.symm.trans hn)
    obtain rfl := Option.some.inj (hdata'.symm.trans hdata)
    rw [hname] at hname'
    cases hname'
  | @node a b c d p ns m n' data' _ _ harranged hallots hmeans _ ih =>
    rcases List.mem_append.mp hj with hj | hj
    · rcases List.mem_cons.mp hj with hj | hj
      · cases hj
        obtain rfl := Option.some.inj (hmeans.node.symm.trans hn)
        exact ⟨n', List.mem_singleton_self _, .here n'⟩
      · obtain ⟨k, hk, hin⟩ := ih hj
        exact ⟨n', List.mem_singleton_self _,
          .part hallots.found (harranged.perm.mem_iff.mp hk) hin⟩
    · simp at hj
  | @bare a b c p ms n' data' _ _ _ hallots ih =>
    obtain ⟨k, hk, hin⟩ := ih hj
    rcases List.mem_append.mp hk with hk | hk
    · exact ⟨k, List.mem_append_left _ hk, hin⟩
    · exact ⟨n', by simp, .part hallots.found hk hin⟩
  | @braces a b p m n' body isBlock stmts _ hn' hbody hmeans ih =>
    rcases List.mem_append.mp hj with hj | hj
    · rcases List.mem_cons.mp hj with hj | hj
      · cases hj
        obtain rfl := Option.some.inj (hmeans.node.symm.trans hn)
        exact ⟨body, List.mem_singleton_self _, .here body⟩
      · obtain ⟨k, hk, hin⟩ := ih hj
        obtain rfl := List.mem_singleton.mp hk
        -- The braces themselves are not meant, so it is in their body.
        cases hin with
        | here =>
          obtain rfl := Option.some.inj (hn'.symm.trans hdata)
          exact absurd rfl (hclosure _ _ _)
        | part hfound hk' hin' =>
          obtain rfl := Option.some.inj (hn'.symm.trans hfound)
          obtain rfl : _ = body := by simpa [NodeData.parts] using hk'
          exact ⟨_, List.mem_singleton_self _, hin'⟩
    · simp at hj

end Recorded

end ScriptAnalysis

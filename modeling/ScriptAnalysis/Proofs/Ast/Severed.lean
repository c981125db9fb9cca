import ScriptAnalysis.Proofs.Ast.Laid
import ScriptAnalysis.Recording.Draft

/-!
# Nodes that belong to nothing

Not every node of an arena is part of the script.  What was allocated while the parse tried
something and took it back stays, and so does the closure around braces that turned out to be a
plain block, whose body is used on.  `Severed` says of the constructs `ns`, which were read since
there were `ids` nodes and `marks` markers, that no such node is among them or in them.

What was read consists of what was read: the parts of the new nodes are new.  So what is in the
constructs of one stretch of the text is not in those of the next, and a stretch that is taken back
is in none.
-/

namespace ScriptAnalysis

variable {ast ast' : Ast} {n x : NodeId} {lo hi : Nat}

/-- Later nodes are not in the nodes of an interval whose parts stay in it, and whatever else is in
    these was there before. -/
theorem Ast.Contains.kept (hclosed : ∀ n data, lo ≤ n → n < hi → ast.data? n = some data →
      ∀ k ∈ data.parts, lo ≤ k ∧ k < n)
    (hsame : ∀ n data', lo ≤ n → n < hi → ast'.data? n = some data' →
      ∃ data, ast.data? n = some data ∧ data.parts = data'.parts)
    (h : ast'.Contains n x) (hlo : lo ≤ n) (hhi : n < hi) :
    ast.Contains n x ∧ lo ≤ x ∧ x ≤ n := by
  induction h with
  | here n => exact ⟨.here n, hlo, Nat.le_refl n⟩
  | @part m k _ data' hdata' hk _ ih =>
    obtain ⟨data, hdata, hparts⟩ := hsame m data' hlo hhi hdata'
    rw [← hparts] at hk
    obtain ⟨hle, hlt⟩ := hclosed m data hlo hhi hdata k hk
    obtain ⟨hcontains, hx, hxk⟩ := ih hle (Nat.lt_trans hlt hhi)
    exact ⟨.part hdata hk hcontains, hx, Nat.le_trans hxk (Nat.le_of_lt hlt)⟩

/-- The nodes of an arena are in a later one, as they were. -/
def Ast.Keeps (ast ast' : Ast) : Prop :=
  ∀ n data, ast.data? n = some data → ast'.data? n = some data

theorem Ast.exists_data_of_lt (h : n < ast.size) : ∃ data, ast.data? n = some data := by
  obtain ⟨node, hnode⟩ : ∃ node, ast.node? n = some node := ⟨_, Array.getElem?_eq_getElem h⟩
  exact ⟨node.data, by rw [Ast.data?, hnode, Option.map_some]⟩

namespace Ast.Keeps

variable {ast'' : Ast}

theorem refl (ast : Ast) : ast.Keeps ast := fun _ _ h => h

theorem trans (h : ast.Keeps ast') (k : ast'.Keeps ast'') : ast.Keeps ast'' :=
  fun n data hdata => k n data (h n data hdata)

theorem size_le (h : ast.Keeps ast') : ast.size ≤ ast'.size := by
  by_contra hlt
  obtain ⟨data, hdata⟩ := Ast.exists_data_of_lt (Nat.not_le.mp hlt)
  exact Nat.lt_irrefl _ (Ast.lt_size_of_data? (h _ _ hdata))

theorem data_of_lt (h : ast.Keeps ast') (hn : n < ast.size) {data : NodeData}
    (hdata : ast'.data? n = some data) : ast.data? n = some data := by
  obtain ⟨old, hold⟩ := Ast.exists_data_of_lt hn
  rw [hold, ← hdata, h n old hold]

end Ast.Keeps

/-! ### Changes of an arena -/

theorem Ast.size_alloc (ast : Ast) (data : NodeData) (span : Span) :
    (ast.alloc data span).2.size = ast.size + 1 := Array.size_push _

theorem Ast.data?_alloc (ast : Ast) (data : NodeData) (span : Span) (n : NodeId) :
    (ast.alloc data span).2.data? n = if n = ast.size then some data else ast.data? n := by
  have hnode : (ast.alloc data span).2.node? n =
      if n = ast.size then some ⟨data, span⟩ else ast.node? n := Array.getElem?_push
  unfold Ast.data?
  rw [hnode]
  split <;> rfl

theorem Ast.keeps_alloc (ast : Ast) (data : NodeData) (span : Span) :
    ast.Keeps (ast.alloc data span).2 := by
  intro n old hold
  rw [ast.data?_alloc, if_neg (Nat.ne_of_lt (Ast.lt_size_of_data? hold)), hold]

/-- Braces turn out to be a plain block. -/
def Ast.plainBlock (ast : Ast) (n body : NodeId) : Ast :=
  ast.modify n fun node => { node with data := .closure [] body true }

theorem Ast.data?_plainBlock {body : NodeId} {data : NodeData} (h : ast.data? n = some data)
    (i : NodeId) : (ast.plainBlock n body).data? i =
      if n = i then some (.closure [] body true) else ast.data? i := by
  unfold Ast.data? Ast.node? at h ⊢
  unfold plainBlock Ast.modify
  rw [Array.getElem?_modify]
  split
  · next heq =>
    subst heq
    obtain ⟨node, hnode, -⟩ := Option.map_eq_some_iff.mp h
    rw [hnode]
    rfl
  · rfl

theorem Ast.size_plainBlock (ast : Ast) (n body : NodeId) :
    (ast.plainBlock n body).size = ast.size := Array.size_modify ..

/-- The constructs `ns`, read since there were `ids` nodes and `marks` markers, are made of new
    nodes, and what was taken back or turned out to be no closure is in none of them. -/
structure Severed (ids marks : Nat) (ast : Ast) (mk : MarkerId → Marker) (ns : List NodeId) :
    Prop where
  parts : ∀ n data, ids ≤ n → ast.data? n = some data → ∀ k ∈ data.parts, ids ≤ k ∧ k < n
  marked : ∀ m n, marks ≤ m → (mk m).node = some n → ids ≤ n ∧ n < ast.size
  rolledBack : ∀ m n x, marks ≤ m → (mk m).state = .rolledBack → (mk m).node = some n →
    ast.Contains n x → ∀ k ∈ ns, ¬ ast.Contains k x
  plainBlock : ∀ n params body, ids ≤ n → ast.data? n = some (.closure params body true) →
    ∀ k ∈ ns, ¬ ast.Contains k n

namespace Severed

variable {ids marks marks' : Nat} {mk mk' : MarkerId → Marker} {ns ms : List NodeId}

/-- Nothing was read. -/
theorem refl (hmk : ∀ m, marks ≤ m → (mk m).node = none) : Severed ast.size marks ast mk [] where
  parts n data hn hdata := absurd (Ast.lt_size_of_data? hdata) (Nat.not_lt.mpr hn)
  marked m n hm hnode := by
    rw [hmk m hm] at hnode
    cases hnode
  rolledBack := by simp
  plainBlock := by simp

/-- What is in a new node is new, and not younger. -/
theorem within (h : Severed ids marks ast mk ns) (hx : ast.Contains n x) (hn : ids ≤ n)
    (hlt : n < ast.size) : ids ≤ x ∧ x ≤ n :=
  (hx.kept (fun n data hn _ => h.parts n data hn) (fun _ data' _ _ hdata' =>
    ⟨data', hdata', rfl⟩) hn hlt).2

/-- A marker that did not change, or that ends with a new node or none. -/
theorem congr (h : Severed ids marks ast mk ns) (hmk : ∀ m, marks ≤ m → mk' m = mk m ∨
      ∀ n, (mk' m).node = some n → (mk' m).state ≠ .rolledBack ∧ ids ≤ n ∧ n < ast.size) :
    Severed ids marks ast mk' ns where
  parts := h.parts
  marked m n hm hnode := by
    rcases hmk m hm with hsame | hnew
    · exact h.marked m n hm (hsame ▸ hnode)
    · exact (hnew n hnode).2
  rolledBack m n x hm hstate hnode := by
    rcases hmk m hm with hsame | hnew
    · exact h.rolledBack m n x hm (hsame ▸ hstate) (hsame ▸ hnode)
    · exact absurd hstate (hnew n hnode).1
  plainBlock := h.plainBlock

/-- Everything that was read is taken back. -/
theorem forget (h : Severed ids marks ast mk ns) (hmk : ∀ m, (mk' m).node = (mk m).node) :
    Severed ids marks ast mk' [] where
  parts := h.parts
  marked m n hm hnode := h.marked m n hm (hmk m ▸ hnode)
  rolledBack := by simp
  plainBlock := by simp

/-- Two stretches of a text, one behind the other.  The second one refers to nothing in the
    first. -/
theorem append (h : Severed ids marks ast mk ns) (k : Severed ast.size marks' ast' mk' ms)
    (hast : ast.Keeps ast') (hmk : ∀ m < marks', mk' m = mk m) (hids : ids ≤ ast.size)
    (hns : ∀ n ∈ ns, ids ≤ n ∧ n < ast.size) (hms : ∀ n ∈ ms, ast.size ≤ n ∧ n < ast'.size) :
    Severed ids marks ast' mk' (ns ++ ms) := by
  have hparts : ∀ n data, ids ≤ n → ast'.data? n = some data →
      ∀ k ∈ data.parts, ids ≤ k ∧ k < n := by
    intro n data hn hdata l hl
    rcases Nat.lt_or_ge n ast.size with hlt | hge
    · exact h.parts n data hn (hast.data_of_lt hlt hdata) l hl
    · obtain ⟨hle, hlt⟩ := k.parts n data hge hdata l hl
      exact ⟨Nat.le_trans hids hle, hlt⟩
  -- In a node of the first stretch is what was in it before.
  have hfirst {n x : NodeId} (hx : ast'.Contains n x) (hn : ids ≤ n) (hlt : n < ast.size) :
      ast.Contains n x ∧ ids ≤ x ∧ x ≤ n :=
    hx.kept (fun n data hn _ => h.parts n data hn)
      (fun n data' _ hlt hdata' => ⟨data', hast.data_of_lt hlt hdata', rfl⟩) hn hlt
  have hsecond {n x : NodeId} (hx : ast'.Contains n x) (hn : ast.size ≤ n) (hlt : n < ast'.size) :
      ast.size ≤ x := (k.within hx hn hlt).1
  refine ⟨hparts, fun m n hm hnode => ?_, fun m n x hm hstate hnode hx l hl hlx => ?_,
    fun n params body hn hdata l hl hln => ?_⟩
  · rcases Nat.lt_or_ge m marks' with hlt | hge
    · obtain ⟨hn, hlt⟩ := h.marked m n hm (hmk m hlt ▸ hnode)
      exact ⟨hn, Nat.lt_of_lt_of_le hlt hast.size_le⟩
    · obtain ⟨hn, hlt⟩ := k.marked m n hge hnode
      exact ⟨Nat.le_trans hids hn, hlt⟩
  · rcases Nat.lt_or_ge m marks' with hlt | hge
    · rw [hmk m hlt] at hstate hnode
      obtain ⟨hn, hnlt⟩ := h.marked m n hm hnode
      obtain ⟨hx', -, hxn⟩ := hfirst hx hn hnlt
      rcases List.mem_append.mp hl with hl | hl
      · exact h.rolledBack m n x hm hstate hnode hx' l hl (hfirst hlx (hns l hl).1 (hns l hl).2).1
      · exact absurd (hsecond hlx (hms l hl).1 (hms l hl).2)
          (Nat.not_le.mpr (Nat.lt_of_le_of_lt hxn hnlt))
    · obtain ⟨hn, hnlt⟩ := k.marked m n hge hnode
      rcases List.mem_append.mp hl with hl | hl
      · obtain ⟨-, -, hxl⟩ := hfirst hlx (hns l hl).1 (hns l hl).2
        exact absurd (hsecond hx hn hnlt) (Nat.not_le.mpr (Nat.lt_of_le_of_lt hxl (hns l hl).2))
      · exact k.rolledBack m n x hge hstate hnode hx l hl hlx
  · rcases Nat.lt_or_ge n ast.size with hlt | hge
    · rcases List.mem_append.mp hl with hl | hl
      · exact h.plainBlock n params body hn (hast.data_of_lt hlt hdata) l hl
          (hfirst hln (hns l hl).1 (hns l hl).2).1
      · exact absurd (hsecond hln (hms l hl).1 (hms l hl).2) (Nat.not_le.mpr hlt)
    · rcases List.mem_append.mp hl with hl | hl
      · obtain ⟨-, -, hnl⟩ := hfirst hln (hns l hl).1 (hns l hl).2
        exact absurd hge (Nat.not_le.mpr (Nat.lt_of_le_of_lt hnl (hns l hl).2))
      · exact k.plainBlock n params body hge hdata l hl hln

/-- A node is allocated that consists of some of the constructs, and takes part in what is left. -/
theorem alloc (h : Severed ids marks ast mk ns) {data : NodeData} {span : Span}
    (hns : ∀ n ∈ ns, ids ≤ n ∧ n < ast.size) (hparts : ∀ k ∈ data.parts, k ∈ ns)
    (hms : ∀ k ∈ ms, k ∈ ns ∨ k = ast.size)
    (hplain : ∀ params body, data ≠ .closure params body true) :
    Severed ids marks (ast.alloc data span).2 mk ms := by
  have hdata := ast.data?_alloc data span
  have hold {n : NodeId} {old : NodeData} (hlt : n < ast.size)
      (h : (ast.alloc data span).2.data? n = some old) : ast.data? n = some old :=
    (ast.keeps_alloc data span).data_of_lt hlt h
  have hwithin {n x : NodeId} (hx : (ast.alloc data span).2.Contains n x) (hn : ids ≤ n)
      (hlt : n < ast.size) : ast.Contains n x ∧ ids ≤ x ∧ x ≤ n :=
    hx.kept (fun n data hn _ => h.parts n data hn) (fun _ old _ hlt h => ⟨old, hold hlt h, rfl⟩) hn
      hlt
  -- In what is left is the new node, and what was in the constructs before.
  have hleft {k x : NodeId} (hk : k ∈ ms) (hx : (ast.alloc data span).2.Contains k x) :
      x = ast.size ∨ ∃ l ∈ ns, ast.Contains l x := by
    have hin {l : NodeId} (hl : l ∈ ns) (hx : (ast.alloc data span).2.Contains l x) :
        ∃ l ∈ ns, ast.Contains l x := ⟨l, hl, (hwithin hx (hns l hl).1 (hns l hl).2).1⟩
    rcases hms k hk with hk | rfl
    · exact .inr (hin hk hx)
    · cases hx with
      | here => exact .inl rfl
      | part hnew hl hx =>
        rw [hdata, if_pos rfl] at hnew
        obtain rfl := Option.some.inj hnew
        exact .inr (hin (hparts _ hl) hx)
  refine ⟨fun n old hn hnode k hk => ?_, fun m n hm hnode => ?_,
    fun m n x hm hstate hnode hx k hk hkx => ?_, fun n params body hn hnode k hk hkn => ?_⟩
  · rw [hdata] at hnode
    split at hnode
    · next heq =>
      obtain rfl := Option.some.inj hnode
      exact heq ▸ hns k (hparts k hk)
    · exact h.parts n old hn hnode k hk
  · obtain ⟨hn, hlt⟩ := h.marked m n hm hnode
    exact ⟨hn, Nat.lt_of_lt_of_le hlt (ast.keeps_alloc data span).size_le⟩
  · obtain ⟨hn, hlt⟩ := h.marked m n hm hnode
    obtain ⟨hx', -, hxn⟩ := hwithin hx hn hlt
    rcases hleft hk hkx with rfl | ⟨l, hl, hlx⟩
    · exact absurd hlt (Nat.not_lt.mpr hxn)
    · exact h.rolledBack m n x hm hstate hnode hx' l hl hlx
  · rw [hdata] at hnode
    split at hnode
    · exact hplain params body (Option.some.inj hnode)
    · next hne =>
      rcases hleft hk hkn with rfl | ⟨l, hl, hln⟩
      · exact hne rfl
      · exact h.plainBlock n params body hn hnode l hl hln

/-- Braces turn out to be a plain block, and their body is used instead of the closure. -/
theorem plainBody (h : Severed ids marks ast mk [n]) {body : NodeId} {isBlock : Bool}
    (hids : ids ≤ n) (hdata : ast.data? n = some (.closure [] body isBlock)) :
    Severed ids marks (ast.plainBlock n body) mk [body] := by
  have hsame : ∀ i data', (ast.plainBlock n body).data? i = some data' →
      ∃ data, ast.data? i = some data ∧ data.parts = data'.parts := by
    intro i data' hdata'
    rw [Ast.data?_plainBlock hdata] at hdata'
    split at hdata'
    · next heq =>
      subst heq
      obtain rfl := Option.some.inj hdata'
      exact ⟨_, hdata, rfl⟩
    · exact ⟨data', hdata', rfl⟩
  have hbody : body ∈ (NodeData.closure [] body isBlock).parts := List.mem_singleton_self body
  obtain ⟨hle, hlt⟩ := h.parts n _ hids hdata body hbody
  have hwithin {i x : NodeId} (hx : (ast.plainBlock n body).Contains i x) (hi : ids ≤ i)
      (hlt : i < ast.size) : ast.Contains i x ∧ ids ≤ x ∧ x ≤ i :=
    hx.kept (fun n data hn _ => h.parts n data hn) (fun i data' _ _ => hsame i data') hi hlt
  have hn : n < ast.size := Ast.lt_size_of_data? hdata
  -- What is in the body is in the closure.
  have hleft {x : NodeId} (hx : (ast.plainBlock n body).Contains body x) : ast.Contains n x :=
    .part hdata hbody (hwithin hx hle (Nat.lt_trans hlt hn)).1
  have hself : n ∈ [n] := List.mem_singleton_self n
  refine ⟨fun i data' hi hdata' => ?_, fun m i hm hnode => ?_,
    fun m i x hm hstate hnode hx k hk hkx => ?_, fun i params body' hi hdata' k hk hki => ?_⟩
  · obtain ⟨data, hdata, hparts⟩ := hsame i data' hdata'
    exact hparts ▸ h.parts i data hi hdata
  · rw [Ast.size_plainBlock]
    exact h.marked m i hm hnode
  · obtain rfl := List.mem_singleton.mp hk
    obtain ⟨hi, hilt⟩ := h.marked m i hm hnode
    exact h.rolledBack m i x hm hstate hnode (hwithin hx hi hilt).1 n hself (hleft hkx)
  · obtain rfl := List.mem_singleton.mp hk
    rw [Ast.data?_plainBlock hdata] at hdata'
    split at hdata'
    · next heq =>
      subst heq
      exact absurd hlt (Nat.not_lt.mpr (hwithin hki hle (Nat.lt_trans hlt hn)).2.2)
    · exact h.plainBlock i params body' hi hdata' n hself (hleft hki)

end Severed

end ScriptAnalysis

import ScriptAnalysis.Proofs.Grammar.ScriptNodes
import Mathlib.Data.List.Nodup

/-!
# The nodes of a script as a tree

The arena of a parse names children by number, so nothing in it tells that two nodes do not share a
child, or that a child is not the node itself.  But nodes are allocated after their parts, and from
the root there is one way to each node that belongs to the script (`Parse.IsTree`).  The nodes that
belong to nothing cannot be reached: those of markers that were taken back with all that is in them,
and the closures around plain blocks.
-/

namespace ScriptAnalysis

namespace Ast

variable {ast : Ast} {n x : NodeId}

/-- Goes down from a node, at each step to the part with this index. -/
def follow (ast : Ast) : NodeId → List Nat → Option NodeId
  | n, [] => some n
  | n, i :: path => ((ast.data? n).bind fun data => data.parts[i]?).bind fun k => ast.follow k path

theorem follow_cons_eq_some {i : Nat} {path : List Nat} : ast.follow n (i :: path) = some x ↔
    ∃ data k, ast.data? n = some data ∧ data.parts[i]? = some k ∧ ast.follow k path = some x := by
  simp only [follow, Option.bind_eq_some_iff]
  constructor
  · rintro ⟨k, ⟨data, hdata, hk⟩, hpath⟩
    exact ⟨data, k, hdata, hk, hpath⟩
  · rintro ⟨data, k, hdata, hk, hpath⟩
    exact ⟨k, ⟨data, hdata, hk⟩, hpath⟩

theorem follow_concat {path : List Nat} {i : Nat} {m k : NodeId} {data : NodeData}
    (h : ast.follow n path = some m) (hdata : ast.data? m = some data)
    (hk : data.parts[i]? = some k) : ast.follow n (path ++ [i]) = some k := by
  induction path generalizing n with
  | nil =>
    obtain rfl := Option.some.inj h
    exact follow_cons_eq_some.mpr ⟨data, k, hdata, hk, rfl⟩
  | cons j path ih =>
    obtain ⟨data', l, hdata', hl, hpath⟩ := follow_cons_eq_some.mp h
    exact follow_cons_eq_some.mpr ⟨data', l, hdata', hl, ih hpath⟩

/-- What is in a node is what can be reached from it. -/
theorem contains_iff_follow : ast.Contains n x ↔ ∃ path, ast.follow n path = some x := by
  constructor
  · intro h
    induction h with
    | here n => exact ⟨[], rfl⟩
    | part hdata hk _ ih =>
      obtain ⟨path, hpath⟩ := ih
      obtain ⟨i, hi⟩ := List.mem_iff_getElem?.mp hk
      exact ⟨i :: path, follow_cons_eq_some.mpr ⟨_, _, hdata, hi, hpath⟩⟩
  · rintro ⟨path, hpath⟩
    induction path generalizing n with
    | nil =>
      obtain rfl := Option.some.inj hpath
      exact .here n
    | cons i path ih =>
      obtain ⟨data, k, hdata, hk, hpath⟩ := follow_cons_eq_some.mp hpath
      exact .part hdata (List.mem_of_getElem? hk) (ih hpath)

/-- Every node was allocated after its parts. -/
def Descends (ast : Ast) : Prop := ∀ n data, ast.data? n = some data → ∀ k ∈ data.parts, k < n

namespace Descends

theorem le (h : ast.Descends) (hx : ast.Contains n x) : x ≤ n := by
  induction hx with
  | here n => exact Nat.le_refl n
  | part hdata hk _ ih => exact Nat.le_trans ih (Nat.le_of_lt (h _ _ hdata _ hk))

/-- Nothing is in itself. -/
theorem lt (h : ast.Descends) {i : Nat} {path : List Nat} (hx : ast.follow n (i :: path) = some x) :
    x < n := by
  obtain ⟨data, k, hdata, hk, hpath⟩ := follow_cons_eq_some.mp hx
  exact Nat.lt_of_le_of_lt (h.le (contains_iff_follow.mpr ⟨path, hpath⟩))
    (h n data hdata k (List.mem_of_getElem? hk))

end Descends

/-- Nothing is in two of these nodes, and none of them is listed twice. -/
structure Apart (ast : Ast) (ns : List NodeId) : Prop where
  nodup : ns.Nodup
  disjoint : ∀ k ∈ ns, ∀ l ∈ ns, k ≠ l → ∀ x, ast.Contains k x → ¬ ast.Contains l x

namespace Apart

variable {ns ms : List NodeId}

theorem of_laid {a b : ParsePoint} (h : Laid ast a ns b) : ast.Apart ns :=
  ⟨h.nodup, fun _ hk _ hl hne _ hkx => h.disjoint hk hl hne hkx⟩

theorem perm (h : ast.Apart ns) (hperm : ns.Perm ms) : ast.Apart ms :=
  ⟨hperm.nodup h.nodup, fun k hk l hl =>
    h.disjoint k (hperm.mem_iff.mpr hk) l (hperm.mem_iff.mpr hl)⟩

theorem sublist (h : ast.Apart ns) (hms : ms.Sublist ns) : ast.Apart ms :=
  ⟨h.nodup.sublist hms, fun k hk l hl => h.disjoint k (hms.subset hk) l (hms.subset hl)⟩

/-- The parts of what is laid out are apart, and so are those of everything in it. -/
theorem parts {a b : ParsePoint} {m : NodeId} {data : NodeData} (h : Laid ast a [n] b)
    (hm : ast.Contains n m) (hdata : ast.data? m = some data) : ast.Apart data.parts := by
  obtain ⟨_, _, _, ns, hns, harranged, -, -⟩ := (h.contains hm).of_data hdata
  exact (of_laid hns).perm harranged.perm

/-- A block of some of the nodes comes after all of them, and the others are kept beside it. -/
theorem block (h : ast.Apart (ns ++ ms)) {body : NodeId} (hd : ast.Descends)
    (hdata : ast.data? body = some (.block ms)) (hbefore : ∀ n ∈ ns, n < body) :
    ast.Apart (ns ++ [body]) := by
  have hnodup := List.nodup_append.mp h.nodup
  -- What is in the block is the block, or in one of its statements.
  have hother : ∀ n ∈ ns, ∀ x, ast.Contains n x → ¬ ast.Contains body x := by
    intro n hn x hx hbody
    cases hbody with
    | here => exact absurd (hd.le hx) (Nat.not_le.mpr (hbefore n hn))
    | part hdata' hk hkx =>
      obtain rfl := Option.some.inj (hdata.symm.trans hdata')
      exact h.disjoint n (List.mem_append_left _ hn) _ (List.mem_append_right _ hk)
        (hnodup.2.2 n hn _ hk) x hx hkx
  refine ⟨List.nodup_append.mpr ⟨hnodup.1, List.nodup_singleton body, fun n hn k hk => ?_⟩,
    fun k hk l hl hne x hkx hlx => ?_⟩
  · obtain rfl := List.mem_singleton.mp hk
    exact Nat.ne_of_lt (hbefore n hn)
  · rcases List.mem_append.mp hk with hkn | hkb <;> rcases List.mem_append.mp hl with hln | hlb
    · exact h.disjoint k (List.mem_append_left _ hkn) l (List.mem_append_left _ hln) hne x hkx hlx
    · obtain rfl := List.mem_singleton.mp hlb
      exact hother k hkn x hkx hlx
    · obtain rfl := List.mem_singleton.mp hkb
      exact hother l hln x hlx hkx
    · exact hne ((List.mem_singleton.mp hkb).trans (List.mem_singleton.mp hlb).symm)

end Apart

/-- If the parts of all nodes in a node are apart, there is one way to each of them. -/
theorem follow_unique (hd : ast.Descends)
    (hapart : ∀ m data, ast.Contains n m → ast.data? m = some data → ast.Apart data.parts)
    {path path' : List Nat} (h : ast.follow n path = some x) (h' : ast.follow n path' = some x) :
    path = path' := by
  induction path generalizing n path' with
  | nil =>
    cases path' with
    | nil => rfl
    | cons j rest =>
      obtain rfl := Option.some.inj h
      exact absurd (hd.lt h') (Nat.lt_irrefl n)
  | cons i path ih =>
    cases path' with
    | nil =>
      obtain rfl := Option.some.inj h'
      exact absurd (hd.lt h) (Nat.lt_irrefl n)
    | cons j path' =>
      obtain ⟨data, k, hdata, hk, hpath⟩ := follow_cons_eq_some.mp h
      obtain ⟨data', l, hdata', hl, hpath'⟩ := follow_cons_eq_some.mp h'
      obtain rfl := Option.some.inj (hdata.symm.trans hdata')
      have hparts := hapart n data (.here n) hdata
      have hkmem := List.mem_of_getElem? hk
      -- The node is in both parts, so they are one part.
      have hkl : k = l := by
        by_contra hne
        exact hparts.disjoint k hkmem l (List.mem_of_getElem? hl) hne x
          (contains_iff_follow.mpr ⟨path, hpath⟩) (contains_iff_follow.mpr ⟨path', hpath'⟩)
      subst hkl
      have hij : i = j := by
        obtain ⟨hi, hik⟩ := List.getElem?_eq_some_iff.mp hk
        obtain ⟨hj, hjk⟩ := List.getElem?_eq_some_iff.mp hl
        exact (List.Nodup.getElem_inj_iff hparts.nodup).mp (hik.trans hjk.symm)
      subst hij
      have hrest := ih (fun m data hm hdata' => hapart m data (.part hdata hkmem hm) hdata') hpath
        hpath'
      rw [hrest]

end Ast

namespace ScriptRecorded

variable {ast : Ast} {mk : MarkerId → Marker} {events : List Event} {root : Nat}
  {parts : ScriptParts}

theorem descends (h : ScriptRecorded ast mk events root parts) : ast.Descends :=
  fun n data hdata k hk => (h.severed.parts n data (Nat.zero_le n) hdata k hk).2

/-- The parts of each node of a script are apart.  The block of the statements is none of the
    constructs that were read; it gathers those that are neither imports nor classes. -/
theorem apart_parts (h : ScriptRecorded ast mk events root parts) {m : NodeId} {data : NodeData}
    (hm : ast.Contains root m) (hdata : ast.data? m = some data) : ast.Apart data.parts := by
  have hlaid : Laid ast ⟨0, 0⟩ parts.members parts.stop := h.recorded.laid
  have hmember {n : NodeId} (hn : n ∈ parts.members) (hm : ast.Contains n m) :
      ast.Apart data.parts := Ast.Apart.parts (hlaid.mem hn) hm hdata
  have hroot : (NodeData.classDecl parts.decl).parts =
      parts.decl.inner ++ parts.decl.imports ++ [parts.body] := by
    simp [NodeData.parts, h.script.fields, h.script.methods, h.script.body]
  have hperm : parts.members.Perm (parts.decl.inner ++ parts.decl.imports ++ parts.stmts) :=
    h.perm.trans (List.perm_append_comm.append_right _)
  cases hm with
  | here =>
    obtain rfl := Option.some.inj (h.data_root.symm.trans hdata)
    rw [hroot]
    refine ((Ast.Apart.of_laid hlaid).perm hperm).block h.descends h.data_body fun n hn => ?_
    have hn' := hperm.mem_iff.mpr (List.mem_append_left _ hn)
    exact Nat.lt_of_lt_of_le (hlaid.mem_lt hn').2 h.le_body
  | part hdata' hk hm =>
    obtain rfl := Option.some.inj (h.data_root.symm.trans hdata')
    rw [hroot] at hk
    rcases List.mem_append.mp hk with hk | hk
    · exact hmember (hperm.mem_iff.mpr (List.mem_append_left _ hk)) hm
    · obtain rfl := List.mem_singleton.mp hk
      cases hm with
      | here =>
        obtain rfl := Option.some.inj (h.data_body.symm.trans hdata)
        exact (Ast.Apart.of_laid hlaid).sublist h.sublist
      | part hdata' hstmt hm =>
        obtain rfl := Option.some.inj (h.data_body.symm.trans hdata')
        exact hmember (h.sublist.subset hstmt) hm

/-- No node of a script is a part of two of them. -/
theorem holder_unique (h : ScriptRecorded ast mk events root parts) {m m' k : NodeId}
    {data data' : NodeData} (hm : ast.Contains root m) (hm' : ast.Contains root m')
    (hdata : ast.data? m = some data) (hdata' : ast.data? m' = some data') (hk : k ∈ data.parts)
    (hk' : k ∈ data'.parts) : m = m' := by
  obtain ⟨path, hpath⟩ := Ast.contains_iff_follow.mp hm
  obtain ⟨path', hpath'⟩ := Ast.contains_iff_follow.mp hm'
  obtain ⟨i, hi⟩ := List.mem_iff_getElem?.mp hk
  obtain ⟨i', hi'⟩ := List.mem_iff_getElem?.mp hk'
  have heq := Ast.follow_unique h.descends (fun m data hm hdata => h.apart_parts hm hdata)
    (Ast.follow_concat hpath hdata hi) (Ast.follow_concat hpath' hdata' hi')
  obtain ⟨rfl, -⟩ := List.append_inj' heq rfl
  exact Option.some.inj (hpath.symm.trans hpath')

end ScriptRecorded

/-- The nodes of a parse that belong to its root form a tree, in the order of their allocation. -/
structure Parse.IsTree (p : Parse) : Prop where
  /-- Whatever is stored in a node was allocated before it. -/
  parts_lt : ∀ n data, p.ast.data? n = some data → ∀ k ∈ data.parts, k < n
  /-- There are no two ways from the root to the same node. -/
  path_unique : ∀ x path path', p.ast.follow p.root path = some x →
    p.ast.follow p.root path' = some x → path = path'
  /-- What was read and taken back is not reached, and neither is anything in it. -/
  rolledBack : ∀ m n x, (p.transcript.marker m).state = .rolledBack →
    (p.transcript.marker m).node = some n → (∃ path, p.ast.follow n path = some x) →
    ∀ path, p.ast.follow p.root path ≠ some x
  /-- A closure that turned out to be a plain block is not reached. -/
  plainBlock : ∀ n params body, p.ast.data? n = some (.closure params body true) →
    ∀ path, p.ast.follow p.root path ≠ some n

/-- Every text is parsed to a tree. -/
theorem parse_is_tree (text : String) : ∃ p, parseScript text = .ok p ∧ p.IsTree := by
  obtain ⟨p, -, -, -, hp, -⟩ := parseWith_script text (scan_endsWithEof text)
  obtain ⟨parts, h⟩ := ScriptRecorded.of_parse hp
  have hroot := List.mem_singleton_self p.root
  refine ⟨p, hp, h.descends, ?_, ?_, ?_⟩
  · exact fun x path path' hpath hpath' =>
      Ast.follow_unique h.descends (fun m data hm hdata => h.apart_parts hm hdata) hpath hpath'
  · intro m n x hstate hnode hx path hpath
    exact h.severed.rolledBack m n x (Nat.zero_le m) hstate hnode (Ast.contains_iff_follow.mpr hx)
      p.root hroot (Ast.contains_iff_follow.mpr ⟨path, hpath⟩)
  · intro n params body hdata path hpath
    exact h.severed.plainBlock n params body (Nat.zero_le n) hdata p.root hroot
      (Ast.contains_iff_follow.mpr ⟨path, hpath⟩)

/-- Braces are tried as a closure.  What was read as its parameter is taken back, and of the closure
    only the block is reached. -/
example : (parseScript "\x7bx\x7d").toOption.any (fun p => decide (
    (p.transcript.marker 3).state = .rolledBack ∧ (p.transcript.marker 3).node = some 2 ∧
    p.ast.data? 6 = some (.closure [] 5 true) ∧ p.ast.follow p.root [0, 0] = some 5)) = true := by
  decide +kernel

end ScriptAnalysis

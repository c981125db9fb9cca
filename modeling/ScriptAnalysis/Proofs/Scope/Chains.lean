import ScriptAnalysis.Proofs.Scope.Bases

/-!
# Chains of classes end

Base classes and enclosing classes are followed by name, through this script and other files, and
the links may form circles.  As long as finitely many names are known, every chain ends, and more
steps than there are known names change nothing.  A chain of base classes is the longest sequence
without repetition.
-/

namespace ScriptAnalysis

/-! ### Base classes -/

/-- Known classes with distinct names from the class `name` on, each the base of the one before
    it. -/
structure IsBaseSequence (find : String → Option ClassSummary) (name : String)
    (cs : List ClassSummary) : Prop where
  known : ∀ c ∈ cs, find c.fullName = some c
  starts : ∀ c ∈ cs.head?, c.fullName = name
  linked : cs.IsChain fun c d => c.base = some d.fullName
  distinct : (cs.map ClassSummary.fullName).Nodup

namespace BaseChain

variable {find : String → Option ClassSummary} {seen : List String} {name : String}
  {chain cs : List ClassSummary}

theorem starts (h : BaseChain find seen name chain)
    (hfind : ∀ name c, find name = some c → c.fullName = name) :
    ∀ c ∈ chain.head?, c.fullName = name := by
  cases h with
  | seen _ => simp
  | unknown _ _ => simp
  | last _ hc _ => simpa using hfind _ _ hc
  | more _ hc _ _ => simpa using hfind _ _ hc

theorem eq_nil_iff (h : BaseChain find seen name chain) :
    chain = [] ↔ name ∈ seen ∨ find name = none := by
  cases h with
  | seen hseen => simp [hseen]
  | unknown hnew hnone => simp [hnone]
  | last hnew hc _ => simp [hnew, hc]
  | more hnew hc _ _ => simp [hnew, hc]

theorem known (h : BaseChain find seen name chain)
    (hfind : ∀ name c, find name = some c → c.fullName = name) :
    ∀ c ∈ chain, find c.fullName = some c ∧ c.fullName ∉ seen := by
  induction h with
  | seen _ => simp
  | unknown _ _ => simp
  | last hnew hc _ =>
    obtain rfl := hfind _ _ hc
    simpa using ⟨hc, hnew⟩
  | more hnew hc _ _ ih =>
    obtain rfl := hfind _ _ hc
    refine List.forall_mem_cons.mpr ⟨⟨hc, hnew⟩, fun d hd => ?_⟩
    exact ⟨(ih d hd).1, fun hmem => (ih d hd).2 (List.mem_cons_of_mem _ hmem)⟩

theorem isBaseSequence (h : BaseChain find seen name chain)
    (hfind : ∀ name c, find name = some c → c.fullName = name) :
    IsBaseSequence find name chain where
  known c hc := (h.known hfind c hc).1
  starts := h.starts hfind
  linked := by
    induction h with
    | seen _ => exact .nil
    | unknown _ _ => exact .nil
    | last _ _ _ => exact .singleton _
    | more hnew hc hbase hrest ih =>
      refine List.isChain_cons.mpr ⟨fun d hd => ?_, ih⟩
      rw [hbase, hrest.starts hfind d hd]
  distinct := by
    induction h with
    | seen _ => exact List.nodup_nil
    | unknown _ _ => exact List.nodup_nil
    | last _ _ _ => exact List.nodup_singleton _
    | more hnew hc _ hrest ih =>
      obtain rfl := hfind _ _ hc
      refine List.nodup_cons.mpr ⟨fun hmem => ?_, ih⟩
      obtain ⟨d, hd, heq⟩ := List.mem_map.mp hmem
      exact (hrest.known hfind d hd).2 (heq ▸ List.mem_cons_self ..)

/-- No sequence without repetition goes farther. -/
theorem longest (h : BaseChain find seen name chain) (hcs : IsBaseSequence find name cs)
    (hnew : ∀ c ∈ cs, c.fullName ∉ seen) : cs <+: chain := by
  induction h generalizing cs with
  | @seen seen name hseen =>
    cases cs with
    | nil => exact List.nil_prefix
    | cons d ds =>
      obtain rfl := hcs.starts d rfl
      exact absurd hseen (hnew d (List.mem_cons_self ..))
  | @unknown seen name _ hnone =>
    cases cs with
    | nil => exact List.nil_prefix
    | cons d ds =>
      obtain rfl := hcs.starts d rfl
      exact absurd (hcs.known d (List.mem_cons_self ..)) (by rw [hnone]; simp)
  | @last seen name c _ hc hbase =>
    cases cs with
    | nil => exact List.nil_prefix
    | cons d ds =>
      obtain rfl := hcs.starts d rfl
      obtain rfl := Option.some.inj ((hcs.known d (List.mem_cons_self ..)).symm.trans hc)
      cases ds with
      | nil => exact List.prefix_rfl
      | cons e es =>
        have hlink := (List.isChain_cons_cons.mp hcs.linked).1
        rw [hbase] at hlink
        cases hlink
  | @more seen name base c rest _ hc hbase _ ih =>
    cases cs with
    | nil => exact List.nil_prefix
    | cons d ds =>
      obtain rfl := hcs.starts d rfl
      obtain rfl := Option.some.inj ((hcs.known d (List.mem_cons_self ..)).symm.trans hc)
      have hdistinct := List.nodup_cons.mp hcs.distinct
      have hlinked := List.isChain_cons.mp hcs.linked
      refine List.cons_prefix_cons.mpr ⟨rfl, ih ⟨?_, ?_, hlinked.2, hdistinct.2⟩ ?_⟩
      · exact fun e he => hcs.known e (List.mem_cons_of_mem _ he)
      · exact fun e he => (Option.some.inj (hbase.symm.trans (hlinked.1 e he))).symm
      · intro e he hmem
        rcases List.mem_cons.mp hmem with heq | hmem
        · exact hdistinct.1 (List.mem_map.mpr ⟨e, he, heq⟩)
        · exact hnew e (List.mem_cons_of_mem _ he) hmem

/-- Where it stops: a class is the last one exactly if it has no base, or its base is not known or
    occurs already. -/
theorem stops_iff {front rest : List ClassSummary} {c : ClassSummary}
    (h : BaseChain find seen name (front ++ c :: rest))
    (hfind : ∀ name c, find name = some c → c.fullName = name) :
    rest = [] ↔ ∀ base, c.base = some base →
      find base = none ∨ base ∈ seen ∨ base ∈ (front ++ [c]).map ClassSummary.fullName := by
  generalize hchain : front ++ c :: rest = chain at h
  induction h generalizing front with
  | seen _ => simp at hchain
  | unknown _ _ => simp at hchain
  | last hnew hc hbase =>
    obtain ⟨rfl, hhead⟩ | ⟨_, rfl, hrest⟩ := List.append_eq_cons_iff.mp hchain
    · obtain ⟨rfl, rfl⟩ := List.cons.inj hhead
      simp [hbase]
    · simp at hrest
  | @more seen name base d ds hnew hc hbase hrest ih =>
    obtain rfl := hfind _ _ hc
    obtain ⟨rfl, hhead⟩ | ⟨front', rfl, heq⟩ := List.append_eq_cons_iff.mp hchain
    · obtain ⟨rfl, rfl⟩ := List.cons.inj hhead
      rw [hrest.eq_nil_iff, hbase]
      simp [or_comm, or_assoc]
    · rw [ih heq.symm]
      simp [or_assoc, or_left_comm]

end BaseChain

/-! ### Enclosing classes -/

/-- `OuterChain outer? seen name names`: outwards from the class `name` the names are `names`.  They
    end at a class that has none around it, and where a name is among those `seen` before. -/
inductive OuterChain (outer? : String → Option String) :
    List String → String → List String → Prop
  | seen {seen : List String} {name : String} : name ∈ seen → OuterChain outer? seen name []
  | last {seen : List String} {name : String} :
      name ∉ seen → outer? name = none → OuterChain outer? seen name [name]
  | more {seen names : List String} {name outer : String} :
      name ∉ seen → outer? name = some outer → OuterChain outer? (name :: seen) outer names →
      OuterChain outer? seen name (name :: names)

namespace OuterChain

variable {outer? : String → Option String} {seen names : List String} {name : String}

theorem head?_eq (h : OuterChain outer? seen name names) :
    names.head? = if name ∈ seen then none else some name := by
  cases h with
  | seen hseen => simp [hseen]
  | last hnew _ => simp [hnew]
  | more hnew _ _ => simp [hnew]

theorem eq_nil_iff (h : OuterChain outer? seen name names) : names = [] ↔ name ∈ seen := by
  rw [← List.head?_eq_none_iff, h.head?_eq]
  simp

theorem not_mem_seen (h : OuterChain outer? seen name names) : ∀ n ∈ names, n ∉ seen := by
  induction h with
  | seen _ => simp
  | last hnew _ => simpa using hnew
  | more hnew _ _ ih =>
    exact List.forall_mem_cons.mpr ⟨hnew, fun n hn hmem => ih n hn (List.mem_cons_of_mem _ hmem)⟩

theorem nodup (h : OuterChain outer? seen name names) : names.Nodup := by
  induction h with
  | seen _ => exact List.nodup_nil
  | last _ _ => exact List.nodup_singleton _
  | more _ _ hrest ih =>
    exact List.nodup_cons.mpr ⟨fun hmem => hrest.not_mem_seen _ hmem (List.mem_cons_self ..), ih⟩

theorem linked (h : OuterChain outer? seen name names) :
    names.IsChain fun a b => outer? a = some b := by
  induction h with
  | seen _ => exact .nil
  | last _ _ => exact .singleton _
  | more _ houter hrest ih =>
    refine List.isChain_cons.mpr ⟨fun b hb => ?_, ih⟩
    rw [hrest.head?_eq] at hb
    split at hb
    · cases hb
    · rw [houter, Option.mem_def.mp hb]

/-- A class is the last one exactly if no class is around it, or one that occurs already. -/
theorem stops_iff {front rest : List String} {a : String}
    (h : OuterChain outer? seen name (front ++ a :: rest)) :
    rest = [] ↔ ∀ outer, outer? a = some outer → outer ∈ seen ∨ outer ∈ front ++ [a] := by
  generalize hnames : front ++ a :: rest = names at h
  induction h generalizing front with
  | seen _ => simp at hnames
  | last hnew hnone =>
    obtain ⟨rfl, hhead⟩ | ⟨_, rfl, hrest⟩ := List.append_eq_cons_iff.mp hnames
    · obtain ⟨rfl, rfl⟩ := List.cons.inj hhead
      simp [hnone]
    · simp at hrest
  | @more seen names name outer hnew houter hrest ih =>
    obtain ⟨rfl, hhead⟩ | ⟨front', rfl, heq⟩ := List.append_eq_cons_iff.mp hnames
    · obtain ⟨rfl, rfl⟩ := List.cons.inj hhead
      rw [hrest.eq_nil_iff, houter]
      simp [or_comm]
    · rw [ih heq.symm]
      simp [or_assoc, or_left_comm]

end OuterChain

/-! ### More steps change nothing -/

theorem Consulted.bind_eq_of_value {α β : Type} (x : Consulted α) {f g : α → Consulted β}
    (h : f x.value = g x.value) : x >>= f = x >>= g := by
  change Consulted.mk _ _ = Consulted.mk _ _
  rw [h]

namespace Resolution

variable {r : Resolution} {others : ClassLookup} {names seen : List String} {steps steps' : Nat}

theorem basesFrom_steps (h : r.Enough others names seen steps)
    (h' : r.Enough others names seen steps') (name : String) :
    r.basesFrom others steps seen name = r.basesFrom others steps' seen name := by
  induction steps generalizing steps' seen name with
  | zero => exact absurd h.pos (Nat.lt_irrefl 0)
  | succ steps ih =>
    obtain ⟨steps', rfl⟩ := Nat.exists_eq_add_one.mpr h'.pos
    unfold basesFrom
    split
    · rfl
    · next hnew =>
      refine Consulted.bind_eq_of_value _ ?_
      cases hfound : (r.findClass others name).value with
      | none => rfl
      | some c =>
        have hknown : (r.findClass others name).value ≠ none := by rw [hfound]; simp
        simp only [ih (h.step hnew hknown) (h'.step hnew hknown)]

/-- The class around a class, as far as the class is known. -/
def outer? (r : Resolution) (others : ClassLookup) (name : String) : Option String :=
  (r.findClass others name).value.bind ClassSummary.enclosing

theorem outwardsFrom_steps (h : r.Enough others names seen steps)
    (h' : r.Enough others names seen steps') (name : String) :
    r.outwardsFrom others steps seen name = r.outwardsFrom others steps' seen name := by
  induction steps generalizing steps' seen name with
  | zero => exact absurd h.pos (Nat.lt_irrefl 0)
  | succ steps ih =>
    obtain ⟨steps', rfl⟩ := Nat.exists_eq_add_one.mpr h'.pos
    unfold outwardsFrom
    split
    · rfl
    · next hnew =>
      refine Consulted.bind_eq_of_value _ ?_
      cases houter : (r.findClass others name).value.bind ClassSummary.enclosing with
      | none => rfl
      | some outer =>
        have hknown : (r.findClass others name).value ≠ none := by
          intro hnone
          simp [hnone] at houter
        simp only [ih (h.step hnew hknown) (h'.step hnew hknown) outer]

/-- With more steps than there are known names the enclosing classes are followed to the end. -/
theorem outwardsFrom_isChain (h : r.Enough others names seen steps) (name : String) :
    OuterChain (r.outer? others) seen name (r.outwardsFrom others steps seen name).value := by
  induction steps generalizing seen name with
  | zero => exact absurd h.pos (Nat.lt_irrefl 0)
  | succ steps ih =>
    unfold outwardsFrom
    split
    · next hseen => exact .seen hseen
    · next hnew =>
      rw [Consulted.value_bind]
      cases houter : (r.findClass others name).value.bind ClassSummary.enclosing with
      | none => exact .last hnew houter
      | some outer =>
        have hknown : (r.findClass others name).value ≠ none := by
          intro hnone
          simp [hnone] at houter
        exact .more hnew houter (ih (h.step hnew hknown) outer)

/-! ### Both chains -/

/-- The chain of base classes of a class: following the bases ends, at `chain`, which is the longest
    sequence without repetition, and it is what is computed, with however many more steps. -/
structure HasBases (r : Resolution) (others : ClassLookup) (name : String)
    (chain : List ClassSummary) : Prop where
  ends : BaseChain (fun name => (r.findClass others name).value) [] name chain
  value : (r.classChain others name).value = chain
  steps : ∀ steps ≥ r.chainLimit others,
    r.basesFrom others steps [] name = r.classChain others name
  sequence : IsBaseSequence (fun name => (r.findClass others name).value) name chain
  longest : ∀ cs, IsBaseSequence (fun name => (r.findClass others name).value) name cs →
    cs <+: chain
  unknown : chain = [] ↔ (r.findClass others name).value = none
  stops : ∀ front c rest, chain = front ++ c :: rest → (rest = [] ↔ ∀ base, c.base = some base →
    (r.findClass others base).value = none ∨ base ∈ (front ++ [c]).map ClassSummary.fullName)

/-- The classes around a class: following them ends, at `names`, and this is what is computed, with
    however many more steps. -/
structure HasOuter (r : Resolution) (others : ClassLookup) (name : String)
    (names : List String) : Prop where
  ends : OuterChain (r.outer? others) [] name names
  value : (r.enclosingClasses others name).value = names
  steps : ∀ steps ≥ r.chainLimit others,
    r.outwardsFrom others steps [] name = r.enclosingClasses others name
  starts : names.head? = some name
  distinct : names.Nodup
  linked : names.IsChain fun a b => r.outer? others a = some b
  stops : ∀ front a rest, names = front ++ a :: rest →
    (rest = [] ↔ ∀ outer, r.outer? others a = some outer → outer ∈ front ++ [a])

/-- However the classes of a script and of other files extend and enclose each other, with finitely
    many known names both chains from every name end. -/
theorem chains_end (r : Resolution) {others : ClassLookup} (hfinite : others.IsFinite)
    (hfaithful : others.IsFaithful) (name : String) :
    (∃ chain, r.HasBases others name chain) ∧ ∃ names, r.HasOuter others name names := by
  obtain ⟨known, henough⟩ := Enough.start (r := r) hfinite
  have hlimit := henough _ (Nat.le_refl (r.chainLimit others))
  have hfind : ∀ name c, (r.findClass others name).value = some c → c.fullName = name :=
    fun _ _ hc => findClass_fullName hfaithful hc
  have hbases := classChain_isChain (r := r) hfinite name
  have houter := outwardsFrom_isChain hlimit name
  constructor
  · exact ⟨_, {
      ends := hbases
      value := rfl
      steps := fun steps hle => basesFrom_steps (henough steps hle) hlimit name
      sequence := hbases.isBaseSequence hfind
      longest := fun cs hcs => hbases.longest hcs (by simp)
      unknown := by simpa using hbases.eq_nil_iff
      stops := fun front c rest heq => by
        rw [heq] at hbases
        simpa only [List.not_mem_nil, false_or] using hbases.stops_iff hfind }⟩
  · exact ⟨_, {
      ends := houter
      value := rfl
      steps := fun steps hle => outwardsFrom_steps (henough steps hle) hlimit name
      starts := by simpa using houter.head?_eq
      distinct := houter.nodup
      linked := houter.linked
      stops := fun front a rest heq => by
        rw [heq] at houter
        simpa only [List.not_mem_nil, false_or] using houter.stops_iff }⟩

/-- A class that extends one of another file, which extends it in turn and lies within it. -/
theorem mutual_chains_end :
    let b : ClassSummary := ⟨"B", none, "B", some "A", [], [], [], some "A", false, 1, 0⟩
    let a : ClassSummary := ⟨"A", none, "A", some "B", [], [], [], some "B", false, 0, 0⟩
    let r : Resolution := { classes := [a] }
    (ClassLookup.ofList [b]).IsFinite ∧ (ClassLookup.ofList [b]).IsFaithful ∧
      r.HasBases (.ofList [b]) "A" [a, b] ∧ r.HasOuter (.ofList [b]) "A" ["A", "B"] := by
  intro b a r
  have hfinite : (ClassLookup.ofList [b]).IsFinite := by
    refine ⟨["B"], by decide, fun name hname => ?_⟩
    by_cases hb : "B" = name
    · exact List.mem_singleton.mpr hb.symm
    · simp [ClassLookup.ofList, b, hb] at hname
  have hfaithful := ClassLookup.isFaithful_ofList [b]
  obtain ⟨⟨chain, hbases⟩, names, houter⟩ := chains_end r hfinite hfaithful "A"
  have hchain : (r.classChain (.ofList [b]) "A").value = [a, b] := by decide +kernel
  have hnames : (r.enclosingClasses (.ofList [b]) "A").value = ["A", "B"] := by decide +kernel
  obtain rfl := hbases.value.symm.trans hchain
  obtain rfl := houter.value.symm.trans hnames
  exact ⟨hfinite, hfaithful, hbases, houter⟩

end Resolution

end ScriptAnalysis

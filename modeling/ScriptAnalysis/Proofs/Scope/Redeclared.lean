import Mathlib.Data.List.Induction
import ScriptAnalysis.Proofs.Scope.Reports

/-!
# Names that are declared again

Of several declarations with one name a scope keeps the first (`keepNew`).  The others are the
`repeats`, and each of them is reported.  A part of a walk that reports none is `Mute`.
-/

namespace ScriptAnalysis

/-! ### Declarations that are kept and declarations that are not -/

/-- The declarations among `ds` of a name that was declared before, by `walked` or by one of
    them. -/
def repeats (name? : NodeId → Option String) : List NodeId → List NodeId → List NodeId
  | _, [] => []
  | walked, d :: ds =>
    (if walked.any fun k => name? k == name? d then [d] else []) ++ repeats name? (walked ++ [d]) ds

section

variable (name? : NodeId → Option String)

theorem repeats_append (walked ds es : List NodeId) : repeats name? walked (ds ++ es) =
    repeats name? walked ds ++ repeats name? (walked ++ ds) es := by
  induction ds generalizing walked with
  | nil => simp [repeats]
  | cons d ds ih => simp [repeats, ih]

theorem repeats_sublist (walked ds : List NodeId) : (repeats name? walked ds).Sublist ds := by
  induction ds generalizing walked with
  | nil => exact .slnil
  | cons d ds ih =>
    rw [repeats]
    split
    · exact (ih _).cons_cons d
    · exact (ih _).cons d

theorem keepNew_sublist (ds : List NodeId) : (keepNew name? ds).Sublist ds := by
  induction ds using List.reverseRecOn with
  | nil => exact .slnil
  | append_singleton ds d ih =>
    rw [keepNew_concat]
    split
    · exact ih.trans (List.sublist_append_left ds [d])
    · exact ih.append (.refl [d])

/-- Every name that is declared is that of a declaration that is kept. -/
theorem any_keepNew (ds : List NodeId) (name : Option String) :
    ((keepNew name? ds).any fun k => name? k == name) = ds.any fun k => name? k == name := by
  induction ds using List.reverseRecOn with
  | nil => rfl
  | append_singleton ds d ih =>
    rw [keepNew_concat]
    split
    · next hknown =>
      by_cases hname : name? d = name
      · rw [hname] at hknown
        rw [List.any_append, ← ih, hknown, Bool.true_or]
      · simp [ih, hname]
    · rw [List.any_append, List.any_append, ih]

/-- A declaration is kept if none before it has its name. -/
theorem mem_keepNew {ds : List NodeId} {d : NodeId} : d ∈ keepNew name? ds ↔
    ∃ front rest, ds = front ++ d :: rest ∧ ∀ k ∈ front, name? k ≠ name? d := by
  induction ds using List.reverseRecOn with
  | nil => simp [keepNew]
  | append_singleton ds e ih =>
    rw [keepNew_concat, any_keepNew]
    constructor
    · intro hd
      have hcases : d ∈ keepNew name? ds ∨ (d = e ∧ ∀ k ∈ ds, name? k ≠ name? e) := by
        split at hd
        · exact .inl hd
        · next hnew => exact (List.mem_append.mp hd).imp_right fun h => by simp_all
      rcases hcases with hd | ⟨rfl, hnew⟩
      · obtain ⟨front, rest, rfl, hnew⟩ := ih.mp hd
        exact ⟨front, rest ++ [e], by simp, hnew⟩
      · exact ⟨ds, [], rfl, hnew⟩
    · rintro ⟨front, rest, heq, hnew⟩
      rcases rest.eq_nil_or_concat with rfl | ⟨rest, e', rfl⟩
      · obtain ⟨rfl, hlast⟩ := List.append_inj' heq rfl
        obtain rfl := List.singleton_inj.mp hlast
        rw [if_neg (by simpa using hnew)]
        exact List.mem_append_right _ (List.mem_singleton_self e)
      · rw [List.concat_eq_append, ← List.cons_append, ← List.append_assoc] at heq
        obtain ⟨rfl, -⟩ := List.append_inj' heq rfl
        have hd := ih.mpr ⟨front, rest, rfl, hnew⟩
        split
        · exact hd
        · exact List.mem_append_left _ hd

theorem mem_keepNew_filterMap {g : NodeId → Option NodeId} {ns : List NodeId} {d : NodeId} :
    d ∈ keepNew name? (ns.filterMap g) ↔ ∃ front n rest, ns = front ++ n :: rest ∧ g n = some d ∧
      ∀ m ∈ front, ∀ k, g m = some k → name? k ≠ name? d := by
  rw [mem_keepNew]
  constructor
  · rintro ⟨front, rest, heq, hnew⟩
    obtain ⟨ms, ls, rfl, rfl, hls⟩ := List.filterMap_eq_append_iff.mp heq
    obtain ⟨blank, n, ls, rfl, hblank, hn, -⟩ := List.filterMap_eq_cons_iff.mp hls
    refine ⟨ms ++ blank, n, ls, by simp, hn, fun m hm k hk => ?_⟩
    rcases List.mem_append.mp hm with hm | hm
    · exact hnew k (List.mem_filterMap.mpr ⟨m, hm, hk⟩)
    · cases (hblank m hm).symm.trans hk
  · rintro ⟨front, n, rest, rfl, hn, hnew⟩
    refine ⟨front.filterMap g, rest.filterMap g, ?_, fun k hk => ?_⟩
    · rw [List.filterMap_append, List.filterMap_cons_some hn]
    · obtain ⟨m, hm, hk⟩ := List.mem_filterMap.mp hk
      exact hnew m hm k hk

/-- What is not kept is repeated. -/
theorem mem_repeats {ds : List NodeId} (hnodup : ds.Nodup) {d : NodeId} :
    d ∈ repeats name? [] ds ↔ d ∈ ds ∧ d ∉ keepNew name? ds := by
  induction ds using List.reverseRecOn with
  | nil => simp [repeats]
  | append_singleton ds e ih =>
    obtain ⟨hds, -, hne⟩ := List.nodup_append.mp hnodup
    have hfresh : e ∉ ds := fun hmem => hne e hmem e (List.mem_singleton_self e) rfl
    have hkept : e ∉ keepNew name? ds := fun hmem => hfresh ((keepNew_sublist name? ds).mem hmem)
    rw [repeats_append, List.mem_append, ih hds, keepNew_concat, any_keepNew]
    rw [repeats, repeats, List.append_nil, List.nil_append]
    by_cases hd : d = e
    · subst hd
      split
      · simp [hkept]
      · simp [hfresh]
    · split
      · simp [hd]
      · simp [hd]

end

/-! ### What is reported -/

def VarDecl.again (v : VarDecl) : Diagnostic :=
  .ofResolution s!"Variable '{v.name}' already declared" (nameSpan v.name v.nameOffset)

def FunDecl.again (f : FunDecl) : Diagnostic :=
  .ofResolution s!"Function '{f.name}' already declared" (nameSpan f.name f.nameOffset)

/-- The report of a variable or a function that was declared before. -/
def Diagnostic.IsAgain (d : Diagnostic) : Prop :=
  ∃ name : String, d.message = s!"Variable '{name}' already declared" ∨
    d.message = s!"Function '{name}' already declared"

theorem not_isAgain {message : String} (hvar : message.toList.take 2 ≠ "Va".toList)
    (hfun : message.toList.take 2 ≠ "Fu".toList) (span : Span) :
    ¬ (Diagnostic.ofResolution message span).IsAgain := by
  rintro ⟨name, heq | heq⟩
  · refine hvar ?_
    rw [show message = s!"Variable '{name}' already declared" from heq]
    simp [toString, String.toList_append]
  · refine hfun ?_
    rw [show message = s!"Function '{name}' already declared" from heq]
    simp [toString, String.toList_append]

/-- What is reported grows by `told`, in whatever order, and by nothing else about names that are
    declared again. -/
def Resolution.Tells (r : Resolution) (told : List Diagnostic) (r' : Resolution) : Prop :=
  ∃ rest, r'.diagnostics.Perm (r.diagnostics ++ told ++ rest) ∧ ∀ d ∈ rest, ¬ d.IsAgain

namespace Resolution.Tells

variable {r r' r'' : Resolution} {told told' : List Diagnostic}

theorem refl (r : Resolution) : r.Tells [] r := ⟨[], by simp, by simp⟩

theorem perm (h : r.Tells told r') (htold : told.Perm told') : r.Tells told' r' := by
  obtain ⟨rest, hperm, hrest⟩ := h
  exact ⟨rest, hperm.trans ((htold.append_left _).append_right _), hrest⟩

theorem trans (h : r.Tells told r') (k : r'.Tells told' r'') : r.Tells (told ++ told') r'' := by
  obtain ⟨rest, hperm, hrest⟩ := h
  obtain ⟨rest', hperm', hrest'⟩ := k
  refine ⟨rest ++ rest', hperm'.trans ?_, ?_⟩
  · refine (((hperm.append_right _).append_right _)).trans ?_
    rw [List.perm_iff_count]
    intro d
    simp only [List.count_append]
    omega
  · exact fun d hd => (List.mem_append.mp hd).elim (hrest d) (hrest' d)

theorem of_gains (h : r.Gains (fun d => ¬ d.IsAgain) r') : r.Tells [] r' := by
  obtain ⟨ds, hds, hnot⟩ := h.diagnostics
  exact ⟨ds, by rw [hds, List.append_nil], hnot⟩

theorem before (h : r.Tells [] r') (k : r'.Tells told r'') : r.Tells told r'' := h.trans k

theorem after (h : r.Tells told r') (k : r'.Tells [] r'') : r.Tells told r'' := by
  have htrans := h.trans k
  rwa [List.append_nil] at htrans

end Resolution.Tells

namespace Walk

variable {α : Type} {input : ResolveInput} {x : Walk α} {n : NodeId}

/-- Nothing is reported of names that are declared again. -/
def Mute (x : Walk α) : Prop := ∀ r, Reports r (fun d => ¬ d.IsAgain) x

theorem Mute.leads (hx : Mute x) (s : WalkState) :
    x.Leads s fun _ s' => s.resolution.Tells [] s'.resolution :=
  .of_gains (hx s.resolution s rfl)

theorem Mute.along (hx : Mute x) {s : WalkState} {Q : α → WalkState → Prop} (h : x.Leads s Q) :
    x.Leads s fun a s' => Q a s' ∧ s.resolution.Tells [] s'.resolution := h.and (hx.leads s)

theorem tells_report (message : String) (span : Span) (s : WalkState) :
    (report message span).Leads s fun _ s' =>
      s.resolution.Tells [.ofResolution message span] s'.resolution :=
  ⟨[], .of_eq (List.append_nil _).symm, by simp⟩

theorem mute_noteBlock (node : NodeId) : Mute (noteBlock node) := fun _ => reports_noteBlock node

theorem mute_openScope (node : NodeId) (enclosing : Option NodeId) :
    Mute (openScope node enclosing) := fun _ => reports_openScope node enclosing

theorem mute_resolveClass (written : String) : Mute (resolveClass input written) :=
  fun _ => reports_resolveClass input written

theorem mute_bindName (name : String) : Mute (bindName input n name) := fun _ =>
  reports_bindName (not_isAgain (by simp [toString, String.toList_append])
    (by simp [toString, String.toList_append]) _)

theorem mute_checkNumeric (symbol : String) : Mute (checkNumeric input symbol n) := fun _ =>
  reports_checkNumeric fun _ _ _ => not_isAgain (by simp [toString, String.toList_append])
    (by simp [toString, String.toList_append]) _

theorem not_isAgain_unknownClass (path : String) (span : Span) :
    ¬ (Diagnostic.ofResolution s!"Unknown class '{path}'" span).IsAgain :=
  not_isAgain (by simp [toString, String.toList_append])
    (by simp [toString, String.toList_append]) span

theorem mute_checkType (type : TypeRef) (span : Span) : Mute (checkType input type span) :=
  fun _ => reports_checkType fun path _ => not_isAgain_unknownClass path span

theorem mute_checkBase (decl : ClassDecl) (c : ClassSummary) : Mute (checkBase input n decl c) :=
  fun _ => reports_checkBase fun written _ _ _ _ => not_isAgain_unknownClass written _

theorem mute_checkImport (i : ImportedClass) : Mute (checkImport input i) :=
  fun _ => reports_checkImport (not_isAgain_unknownClass i.path _)

end Walk

end ScriptAnalysis

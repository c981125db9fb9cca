import ScriptAnalysis.Proofs.Scope.Lexical
import ScriptAnalysis.Proofs.Scope.Offered
import ScriptAnalysis.Proofs.Tree.DeclaredBefore
import ScriptAnalysis.Proofs.Workspace.Declarations

/-!
# Completion shows what names refer to

The resolver looks a name up while it walks a text, so it knows of a scope what was declared so far.
What is visible at a key is asked later, of the finished scopes and by offsets.  For the key of an
identifier both come to the same declaration, apart from where the list has an order of its own
(`OffersMeaning`, `list_has_own_order`).

The offsets are compared with the start of the nearest statement around the identifier that declares
a variable.  Nothing is said of the variables that this statement encloses, or that it stands in the
declaration of (`Ast.SeesApart`).
-/

namespace ScriptAnalysis

namespace Ast

variable {ast : Ast} {m n : NodeId}

theorem Reaches.contains (h : ast.Reaches m n) : ast.Contains m n := by
  induction h with
  | here n => exact .here n
  | part hdata _ hk _ ih => exact .part hdata hk ih

/-- Nodes that have all their parts among them hold nothing else. -/
theorem Contains.mem_of_closed {ns : List NodeId} (h : ast.Contains m n) (hm : m ∈ ns)
    (hclosed : ∀ k ∈ ns, ∀ j ∈ (ast.data? k).elim [] NodeData.parts, j ∈ ns) : n ∈ ns := by
  induction h with
  | here => exact hm
  | @part m k _ data hdata hk _ ih => exact ih (hclosed m hm k (by rw [hdata]; exact hk))

/-- In the scopes to which a lookup of the name comes, a variable of the name that starts before the
    place is apart from the nearest declaration around the place. -/
def SeesApart (ast : Ast) (root : NodeId) (around : List Surround) (n : NodeId) (name : String) :
    Prop :=
  ∀ inner s outer, around = inner ++ s :: outer →
    (∀ t ∈ inner, t.whole.find? ast name (ast.span n).start = none) →
    ∀ v, ((s.vars ast).find? fun d => ast.varName? d == some name) = some v →
      (ast.span v).start < (ast.span n).start → ast.VarApart root n v

end Ast

/-- What the first entry of a name leads to. -/
def firstShown (shown : List Declaration) (name : String) : Option Binding :=
  (shown.find? (·.name == name)).map Declaration.binding

/-! ### What is shown at a key -/

section

variable {globals : Except GlobalsFault Globals} {file : FileId} {text : String} {s : Analysis}
  {p : Parse} {n : NodeId} {name : String} {key : AstKey}

theorem ResolveInput.alone_isFinite :
    (ResolveInput.alone globals file text p).others.IsFinite :=
  ⟨[], Nat.zero_le _, fun _ hsome => by cases hsome⟩

/-- The list for a key whose node has a scope. -/
theorem Analyzer.IsAlone.visibleDeclarations {a : Analyzer} (h : a.IsAlone globals)
    (hs : s.IsAlone globals file text) (hkey : s.lookup key = some n)
    (hscope : s.resolution.nodeBlock.contains n = true) :
    ∃ a', (Query.visibleDeclarations file text key).run.run a = (.ok
      (s.resolution.visibleDeclarations s.ast (OtherFile.lookup []) n (s.locationOf key)).value,
      a') := by
  obtain ⟨s', a', hput, ha', hs'⟩ := h.answers file text
  obtain rfl := hs'.unique hs
  have hscoped : s'.analysis.scopedNode? key = some n := by
    unfold Analysis.scopedNode? Analysis.nodeInScope?
    rw [hkey, Option.filter_some, hscope]
    rfl
  unfold Query.visibleDeclarations Query.atScope
  rw [Query.run_bind, hput]
  dsimp only
  rw [hscoped, Query.run_consult, ha'.othersOf]
  exact ⟨_, rfl⟩

/-- An identifier has a key and a scope, and the list for it shows first what its place offers. -/
theorem ParsedText.shows (h : ParsedText file text p s.assembly) (hast : s.ast = p.ast)
    (hresolution : s.resolution = (ResolveInput.alone globals file text p).resolve.value)
    (hdata : p.ast.data? n = some (.identifier name)) (hreach : p.ast.Reaches p.root n) :
    ∃ key, s.keyOf? n = some key ∧ s.lookup key = some n ∧
      s.resolution.nodeBlock.contains n = true ∧
      ∀ owner around, (ResolveInput.alone globals file text p).Stands owner around n →
        p.ast.SeesApart p.root around n name →
        firstShown (s.resolution.visibleDeclarations s.ast (OtherFile.lookup []) n
          (s.locationOf key)).value name =
        offeredBinding p.ast
          ((ResolveInput.alone globals file text p).resolve.value.classChain
            (OtherFile.lookup []) owner).value around name (p.ast.span n).start := by
  obtain ⟨parts, cs, place, hplaced⟩ := Assembly.placed h.parsed h.assembled
  have hrecorded := hplaced.script
  obtain ⟨key, hlookup, hkey, hlocation⟩ :=
    hplaced.locationOf_cases hast hreach.contains hdata
  have hstands : ∃ owner around, (ResolveInput.alone globals file text p).Stands owner around n :=
    ResolveInput.stands_of_reaches hrecorded hreach (.inl hdata)
  refine ⟨key, hkey, hlookup, ?_, fun owner around hn hapart => ?_⟩
  · obtain ⟨owner, around, hn⟩ := hstands
    have hvisited := hn.visited hrecorded
    obtain ⟨scope, outer, rfl⟩ :=
      List.exists_cons_of_ne_nil (hvisited.ne_nil_of_isName hrecorded (.inl hdata))
    have hnoted := hvisited.noted hrecorded (.inl hdata)
    rw [hresolution, Std.TreeMap.contains_eq_isSome_getElem?, hnoted]
    rfl
  · rw [hresolution, hast]
    refine hn.find?_visible hrecorded (.inl hdata) fun inner scope outer heq hinner v hfound => ?_
    have hholds := (hn.visited hrecorded).holds hrecorded (heq ▸ List.mem_append_right _
      (List.mem_cons_self ..))
    obtain ⟨e, he, hv, hnamed⟩ := hholds.stmt_of_mem_vars (List.mem_of_find?_eq_some hfound)
    exact hrecorded.starts_before_iff h hreach.contains hdata he hv hnamed hlocation
      (hapart inner scope outer heq hinner v hfound)

end

namespace Workspace

/-- Whatever was put before: when a text is put for a file and no file is registered, what is shown
    first under the name of an identifier is what its place offers, and so what the resolver found
    for it in the script and its classes. -/
theorem completion_shows_bindings (globals : Except GlobalsFault Globals) (policy : CachePolicy)
    (texts : List (FileId × String × Option Nat)) (file : FileId) (text : String) :
    ∃ s a p, (Query.put file text).run.run (after globals policy (puts texts)).analyzer =
      (.ok s, a) ∧
      parseScript text = .ok p ∧ s.analysis.ast = p.ast ∧
      ∀ input : ResolveInput, input = .alone globals file text p →
        s.analysis.resolution = input.resolve.value ∧
        ∀ n name, p.ast.data? n = some (.identifier name) → p.ast.Reaches p.root n →
          ∃ key shown a', s.analysis.keyOf? n = some key ∧ s.analysis.lookup key = some n ∧
            (Query.visibleDeclarations file text key).run.run a = (.ok shown, a') ∧
            (∃ owner around, input.Stands owner around n) ∧
            ∀ owner around, input.Stands owner around n → ∃ chain,
              BaseChain (fun c => (input.resolve.value.findClass input.others c).value) [] owner
                chain ∧
              (p.ast.SeesApart p.root around n name →
                firstShown shown name =
                  offeredBinding p.ast chain around name (p.ast.span n).start ∧
                (OffersMeaning p.ast chain around name (p.ast.span n).start →
                  firstShown shown name =
                    (s.analysis.resolution.bindings[n]?).filter Binding.isDeclaration)) := by
  obtain ⟨s, a, hput, halone, hs⟩ := (isAlone_after globals policy texts).answers file text
  obtain ⟨p, htext, hast, hresolution⟩ := hs.read
  refine ⟨s, a, p, hput, htext.parsed, hast, ?_⟩
  rintro input rfl
  refine ⟨hresolution, fun n name hdata hreach => ?_⟩
  obtain ⟨parts, hrecorded⟩ := ScriptRecorded.of_parse htext.parsed
  obtain ⟨key, hkey, hlookup, hscope, hshows⟩ := htext.shows hast hresolution hdata hreach
  obtain ⟨a', hrun⟩ := halone.visibleDeclarations hs hlookup hscope
  have hstands : ∃ owner around, (ResolveInput.alone globals file text p).Stands owner around n :=
    ResolveInput.stands_of_reaches hrecorded hreach (.inl hdata)
  refine ⟨key, _, a', hkey, hlookup, hrun, hstands, fun owner around hn => ?_⟩
  have houtcome := hn.outcome hrecorded (.inl hdata)
  refine ⟨_, Resolution.classChain_isChain ResolveInput.alone_isFinite owner, fun hapart => ?_⟩
  have hshown := hshows owner around hn hapart
  refine ⟨hshown, fun hmeaning => hshown.trans ?_⟩
  rw [hresolution, houtcome.binding]
  have hsame : OffersMeaning (ResolveInput.alone globals file text p).ast _ around name _ :=
    hmeaning
  exact hsame.offeredBinding_eq

/-- In the initial value of a variable another one is shown that is declared before it. -/
theorem earlier_variable_is_shown :
    ∃ s a p key shown a', (Query.put 1 "A a A b=a").run.run
        (after (.ok .empty) {} (puts [])).analyzer = (.ok s, a) ∧
      parseScript "A a A b=a" = .ok p ∧ p.ast.Reaches p.root 6 ∧ s.analysis.keyOf? 6 = some key ∧
      (Query.visibleDeclarations 1 "A a A b=a" key).run.run a = (.ok shown, a') ∧
      (∃ around chain, p.ast.SeesApart p.root around 6 "a" ∧
        OffersMeaning p.ast chain around "a" (p.ast.span 6).start) ∧
      firstShown shown "a" = some (.localDecl 2) ∧
      s.analysis.resolution.bindings[6]? = some (.localDecl 2) := by
  obtain ⟨s, a, p, hput, hp, -, hshown⟩ :=
    completion_shows_bindings (.ok .empty) {} [] 1 "A a A b=a"
  obtain ⟨-, hshown⟩ := hshown _ rfl
  obtain ⟨hroot, hscript, hblock, hstmt, hdecl, hname⟩ := of_parse hp
    (P := fun p => p.root = 10 ∧
      p.ast.data? 10 = some (.classDecl { body := some 9, isScript := true }) ∧
      p.ast.data? 9 = some (.block [3, 8]) ∧ p.ast.data? 8 = some (.varDecl 7) ∧
      p.ast.data? 7 = some (.varDeclExpr ⟨"b", 6, .named "A", some 6, .localVar⟩) ∧
      p.ast.data? 6 = some (.identifier "a")) (by decide +kernel)
  obtain ⟨hstmt', hdecl', hvar, hfound⟩ := of_parse hp
    (P := fun p => p.ast.data? 3 = some (.varDecl 2) ∧
      p.ast.data? 2 = some (.varDeclExpr ⟨"a", 2, .named "A", none, .localVar⟩) ∧
      (((Surround.mk 9 [] [3, 8] false).vars p.ast).find?
        fun d => p.ast.varName? d == some "a") = some 2 ∧
      (Surround.mk 9 [] [3, 8] false).find? p.ast "a" (p.ast.span 6).start = some 2)
    (by decide +kernel)
  have hreach : p.ast.Reaches p.root 6 := by
    rw [hroot]
    exact .part hscript rfl (by decide) (.part hblock rfl (by decide)
      (.part hstmt rfl (by decide) (.part hdecl rfl (by decide) (.here 6))))
  obtain ⟨key, shown, a', hkey, -, hrun, -, hshown⟩ := hshown 6 "a" hname hreach
  have hopens : p.ast.opens? 9 = some ⟨9, [], [3, 8], false⟩ := by
    rw [Ast.opens?, hblock]
  have hlies : p.ast.Lies [] 9 [⟨9, [], [3, 8], false⟩] 6 := by
    refine .stmt hopens (k := 8) (by decide) ?_
    exact .part hstmt (by rw [Ast.opens?, hstmt]) (by simp) (by decide)
      (.part hdecl (by rw [Ast.opens?, hdecl]) (by simp) (by decide) (.here _ 6))
  have hclass : p.ast.classDecl? p.root = some { body := some 9, isScript := true } :=
    Ast.classDecl?_eq_some.mpr (hroot ▸ hscript)
  obtain ⟨chain, -, hfirst⟩ := hshown _ _ (.script hclass rfl hlies)
  have hapart : p.ast.VarApart p.root 6 2 := by
    rintro d hd (hin | hin)
    · have hmem : d ∈ [10, 9, 8, 7, 6, 3, 2] := hd.reached.mem_of_closed (by simp [hroot])
        (by simp [hscript, hblock, hstmt, hdecl, hname, hstmt', hdecl', NodeData.parts])
      obtain ⟨w, hw⟩ := hd.declares
      simp only [List.mem_cons, List.not_mem_nil, or_false] at hmem
      rcases hmem with rfl | rfl | rfl | rfl | rfl | rfl | rfl
      · simp [hscript] at hw
      · simp [hblock] at hw
      · have hmem : 2 ∈ [8, 7, 6] := hin.mem_of_closed (by simp)
          (by simp [hstmt, hdecl, hname, NodeData.parts])
        simp at hmem
      · simp [hdecl] at hw
      · simp [hname] at hw
      · exact hstmt'
      · simp [hdecl'] at hw
    · have hmem : 6 ∈ [2] := hin.mem_of_closed (by simp) (by simp [hdecl', NodeData.parts])
      simp at hmem
  have hsees : p.ast.SeesApart p.root [⟨9, [], [3, 8], false⟩] 6 "a" := by
    intro inner scope outer heq _ v hv _
    have hmem : scope ∈ [Surround.mk 9 [] [3, 8] false] :=
      heq ▸ List.mem_append_right _ (List.mem_cons_self ..)
    obtain rfl := List.mem_singleton.mp hmem
    obtain rfl := Option.some.inj (hvar.symm.trans hv)
    exact hapart
  have hoffers : OffersMeaning p.ast chain [⟨9, [], [3, 8], false⟩] "a" (p.ast.span 6).start := by
    refine ⟨fun scope hscope => ?_, fun hnone => ?_⟩
    · obtain rfl := List.mem_singleton.mp (List.mem_of_find?_eq_some hscope)
      rw [hfound]
      rfl
    · have := hnone _ (List.mem_singleton_self _)
      cases hfound.symm.trans this
  obtain ⟨hoffered, hmeant⟩ := hfirst hsees
  have hshows : firstShown shown "a" = some (.localDecl 2) := by
    rw [hoffered]
    unfold offeredBinding
    rw [List.findSome?_cons, show (Surround.mk 9 [] [3, 8] false).whole.find? p.ast "a" _ = some 2
      from hfound]
    rfl
  have hbound := (hmeant hoffers).symm.trans hshows
  exact ⟨s, a, p, key, shown, a', hput, hp, hreach, hkey, hrun, ⟨_, chain, hsees, hoffers⟩, hshows,
    (Option.filter_eq_some_iff.mp hbound).1⟩

/-- What an identifier of a text refers to, and what is shown first under its name at its key. -/
def boundAndShown (file : FileId) (text : String) (n : NodeId) (name : String) :
    Query (Option (Option Binding × Option Binding)) := do
  let s ← Query.put file text
  match s.analysis.keyOf? n with
  | none => return none
  | some key =>
    let shown ← Query.visibleDeclarations file text key
    return some (s.analysis.resolution.bindings[n]?, firstShown shown name)

/-- A class whose method has the name of a field of its base class. -/
def methodOverField : String := "class B\x7bA m\x7dclass C extends B\x7bA m()\x7bm\x7d\x7d"

/-- A parameter whose initial value has the name of a function behind it. -/
def parameterBeforeFunction : String := "A f(A a=g)\x7bA g()\x7b\x7d\x7d"

/-- The list has an order of its own: the field of a base class stands in front of the method that
    the resolver finds, and at a parameter the functions of the body are shown, of which the
    resolver finds none. -/
theorem list_has_own_order :
    (∃ p, parseScript methodOverField = .ok p ∧ p.ast.data? 10 = some (.identifier "m") ∧
      p.ast.Reaches p.root 10 ∧
      ((boundAndShown 1 methodOverField 10 "m").run.run
        (after (.ok .empty) {} (puts [])).analyzer).1.toOption =
          some (some (some (.method "C" "m"), some (.field "B" "m")))) ∧
    ∃ p, parseScript parameterBeforeFunction = .ok p ∧ p.ast.data? 4 = some (.identifier "g") ∧
      p.ast.Reaches p.root 4 ∧
      ((boundAndShown 1 parameterBeforeFunction 4 "g").run.run
        (after (.ok .empty) {} (puts [])).analyzer).1.toOption =
          some (some (none, some (.localDecl 10))) := by
  constructor
  · obtain ⟨p, -, -, -, hp, -⟩ := parseWith_script methodOverField (scan_endsWithEof _)
    obtain ⟨hroot, hscript, hclass, hfun, hdecl, hbody, hstmt, hname⟩ := of_parse hp
      (P := fun p => p.root = 17 ∧
        p.ast.data? 17 = some (.classDecl { inner := [5, 15], body := some 16, isScript := true }) ∧
        p.ast.data? 15 = some (.classDecl { name := "C", base := some "B", methods := [14] }) ∧
        p.ast.data? 14 = some (.funDecl 13) ∧
        p.ast.data? 13 = some (.funDeclExpr ⟨"m", 32, .named "A", [], 12, true⟩) ∧
        p.ast.data? 12 = some (.block [11]) ∧ p.ast.data? 11 = some (.exprStmt 10) ∧
        p.ast.data? 10 = some (.identifier "m")) (by decide +kernel)
    refine ⟨p, hp, hname, ?_, by decide +kernel⟩
    rw [hroot]
    exact .part hscript rfl (by decide) (.part hclass rfl (by decide) (.part hfun rfl (by decide)
      (.part hdecl rfl (by decide) (.part hbody rfl (by decide)
        (.part hstmt rfl (by decide) (.here 10))))))
  · obtain ⟨p, -, -, -, hp, -⟩ := parseWith_script parameterBeforeFunction (scan_endsWithEof _)
    obtain ⟨hroot, hscript, hblock, hfun, hdecl, hparam, hvar, hname⟩ := of_parse hp
      (P := fun p => p.root = 16 ∧
        p.ast.data? 16 = some (.classDecl { body := some 15, isScript := true }) ∧
        p.ast.data? 15 = some (.block [14]) ∧ p.ast.data? 14 = some (.funDecl 13) ∧
        p.ast.data? 13 = some (.funDeclExpr ⟨"f", 2, .named "A", [6], 12, false⟩) ∧
        p.ast.data? 6 = some (.varDecl 5) ∧
        p.ast.data? 5 = some (.varDeclExpr ⟨"a", 6, .named "A", some 4, .parameter⟩) ∧
        p.ast.data? 4 = some (.identifier "g")) (by decide +kernel)
    refine ⟨p, hp, hname, ?_, by decide +kernel⟩
    rw [hroot]
    exact .part hscript rfl (by decide) (.part hblock rfl (by decide) (.part hfun rfl (by decide)
      (.part hdecl rfl (by decide) (.part hparam rfl (by decide)
        (.part hvar rfl (by decide) (.here 4))))))

end Workspace

end ScriptAnalysis

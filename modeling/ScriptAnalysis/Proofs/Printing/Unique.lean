import Mathlib.Data.List.TakeWhile
import ScriptAnalysis.Proofs.Printing.Lexing

/-!
# One expression at a node

A node of an arena holds at most one expression (`Expr.At.unique`).  What a node means tells how its
expression is made; a name, the name of a class and a literal are told by the text or the value in
it.
-/

namespace ScriptAnalysis

/-! ### Names -/

theorem Identifier.text_injective {a b : Identifier} (h : a.text = b.text) : a = b := by
  obtain ⟨first, rest, _, _, _⟩ := a
  obtain ⟨first', rest', _, _, _⟩ := b
  obtain ⟨rfl, rfl⟩ := List.cons.inj (String.ofList_inj.mp h)
  rfl

/-- Whether a character may stand in the first name of a path. -/
def inName (c : Char) : Bool := c != '.'

theorem Identifier.inName (a : Identifier) : ∀ c ∈ a.text.toList, inName c = true := by
  intro c hc
  rw [Identifier.text, String.toList_ofList] at hc
  refine bne_iff_ne.mpr ?_
  rintro rfl
  rcases List.mem_cons.mp hc with hfirst | hrest
  · have hstart := a.start
    rw [← hfirst] at hstart
    cases hstart
  · have hpart := List.all_eq_true.mp a.part _ hrest
    cases hpart

/-- The names in a path behind the first one. -/
def dotted (names : List Identifier) : List Char :=
  names.flatMap fun name => '.' :: name.text.toList

theorem ClassName.toList_text_path (first : Identifier) (rest : List Identifier) :
    (ClassName.path first rest).text.toList = first.text.toList ++ dotted rest := by
  have hfold (path : String) : (rest.foldl (fun path name =>
    path ++ "." ++ name.text) path).toList =
      path.toList ++ dotted rest := by
    induction rest generalizing path with
    | nil => exact (List.append_nil _).symm
    | cons name rest ih =>
      rw [List.foldl_cons, ih, String.toList_append, String.toList_append]
      simp [dotted]
  exact hfold first.text

/-- The first name ends at the first dot. -/
theorem span_dotted (a : Identifier) (as : List Identifier) :
    (a.text.toList ++ dotted as).takeWhile inName = a.text.toList ∧
      (a.text.toList ++ dotted as).dropWhile inName = dotted as := by
  refine span_append a.inName fun c hc => ?_
  cases as with
  | nil => cases hc
  | cons name as =>
    cases hc
    rfl

theorem path_injective {a b : Identifier} {as bs : List Identifier}
    (h : a.text.toList ++ dotted as = b.text.toList ++ dotted bs) : a = b ∧ as = bs := by
  have htake := congrArg (List.takeWhile inName) h
  have hdrop := congrArg (List.dropWhile inName) h
  rw [(span_dotted a as).1, (span_dotted b bs).1] at htake
  rw [(span_dotted a as).2, (span_dotted b bs).2] at hdrop
  refine ⟨Identifier.text_injective (String.toList_inj.mp htake), ?_⟩
  match as, bs with
  | [], [] => rfl
  | [], _ :: _ => cases hdrop
  | _ :: _, [] => cases hdrop
  | name :: as, name' :: bs =>
    obtain ⟨rfl, rfl⟩ := path_injective (List.cons.inj hdrop).2
    rfl

/-- A builtin type is no path, since its name is a keyword. -/
theorem ClassName.builtin_ne_path {type : TypeRef}
    (known : keywordType? (TokenKind.ofWord type.name) = some type) (first : Identifier)
    (rest : List Identifier) : type.name ≠ (ClassName.path first rest).text := by
  intro h
  have hname : ∀ c ∈ type.name.toList, inName c = true := by
    cases type with
    | named path =>
      unfold keywordType? at known
      split at known <;> cases known
    | _ => exact List.all_eq_true.mp rfl
  have htake := congrArg (List.takeWhile inName) (congrArg String.toList h)
  rw [ClassName.toList_text_path, (span_dotted first rest).1,
    List.takeWhile_eq_self_iff.mpr hname] at htake
  have hkind : TokenKind.ofWord first.text = .ident := first.free
  rw [String.toList_inj.mp htake, hkind] at known
  cases known

theorem ClassName.text_injective {a b : ClassName} (h : a.text = b.text) : a = b := by
  match a, b with
  | .builtin type known, .builtin type' known' =>
    obtain rfl : type = type' := by
      have hname : type.name = type'.name := h
      rw [← hname, known] at known'
      exact Option.some.inj known'
    rfl
  | .builtin type known, .path first rest =>
    exact absurd h (ClassName.builtin_ne_path known first rest)
  | .path first rest, .builtin type known =>
    exact absurd h.symm (ClassName.builtin_ne_path known first rest)
  | .path first rest, .path first' rest' =>
    have htext := congrArg String.toList h
    rw [ClassName.toList_text_path, ClassName.toList_text_path] at htext
    obtain ⟨rfl, rfl⟩ := path_injective htext
    rfl

/-! ### Literals -/

/-- The digits in front of a point end there. -/
theorem Digits.takeWhile_point (whole fraction : Digits) :
    (whole.chars ++ '.' :: fraction.chars).takeWhile Char.isDigit = whole.chars :=
  (span_append (List.all_eq_true.mp whole.digits) fun c hc => by cases hc; rfl).1

theorem Digits.chars_injective {a b : Digits} (h : a.chars = b.chars) : a = b := by
  cases a
  cases b
  cases h
  rfl

theorem Constant.value_injective {a b : Constant} (h : a.value = b.value) : a = b := by
  match a, b with
  | .int n, .int k =>
    have hval : (n.val : Int) = k.val := Literal.int.inj h
    rw [Fin.ext (Int.ofNat.inj hval)]
  | .decimal whole fraction, .decimal whole' fraction' =>
    have hchars := String.ofList_inj.mp (Literal.decimal.inj h)
    have hwhole : whole.chars = whole'.chars := by
      rw [← Digits.takeWhile_point whole fraction, hchars, Digits.takeWhile_point]
    rw [hwhole] at hchars
    have hfraction := (List.cons.inj (List.append_cancel_left hchars)).2
    rw [Digits.chars_injective hwhole, Digits.chars_injective hfraction]
  | .str _, .str _ => rw [Literal.str.inj h]
  | .bool _, .bool _ => rw [Literal.bool.inj h]
  | .null, .null => rfl

/-! ### Expressions -/

namespace Expr

mutual

/-- A node of an arena holds at most one expression: by cases on it, and what the node means tells
    which case the other one is. -/
theorem At.unique {ast : Ast} : ∀ {e e' : Expr} {id : NodeId}, e.At ast id → e'.At ast id → e = e'
  | .identifier name, e', id, hdata, h' => by
    have hdata : ast.data? id = some (.identifier name.text) := hdata
    cases e' with
    | identifier name' =>
      have hname := NodeData.identifier.inj (Option.some.inj (hdata.symm.trans h'))
      rw [Identifier.text_injective hname]
    | _ => simp [At, hdata] at h'
  | .literal value, e', id, hdata, h' => by
    have hdata : ast.data? id = some (.literal value.value) := hdata
    cases e' with
    | literal value' =>
      have hvalue := NodeData.literal.inj (Option.some.inj (hdata.symm.trans h'))
      rw [Constant.value_injective hvalue]
    | _ => simp [At, hdata] at h'
  | .listLiteral items, e', _, ⟨ids, hdata, hitems⟩, h' => by
    cases e' with
    | listLiteral items' =>
      obtain ⟨ids', hdata', hitems'⟩ := h'
      cases hdata.symm.trans hdata'
      rw [hitems.unique hitems']
    | _ => simp [At, hdata] at h'
  | .binary op left right, e', _, ⟨l, r, hdata, hleft, hright⟩, h' => by
    cases e' with
    | binary op' left' right' =>
      obtain ⟨l', r', hdata', hleft', hright'⟩ := h'
      cases hdata.symm.trans hdata'
      rw [hleft.unique hleft', hright.unique hright']
    | _ => simp [At, hdata] at h'
  | .unary op operand, e', _, ⟨o, hdata, hoperand⟩, h' => by
    cases e' with
    | unary op' operand' =>
      obtain ⟨o', hdata', hoperand'⟩ := h'
      cases hdata.symm.trans hdata'
      rw [hoperand.unique hoperand']
    | _ => simp [At, hdata] at h'
  | .call callee args, e', _, ⟨f, ids, hdata, hcallee, hargs⟩, h' => by
    cases e' with
    | call callee' args' =>
      obtain ⟨f', ids', hdata', hcallee', hargs'⟩ := h'
      cases hdata.symm.trans hdata'
      rw [hcallee.unique hcallee', hargs.unique hargs']
    | _ => simp [At, hdata] at h'
  | .methodCall target name args, e', _, ⟨t, ids, hdata, htarget, hargs⟩, h' => by
    cases e' with
    | methodCall target' name' args' =>
      obtain ⟨t', ids', hdata', htarget', hargs'⟩ := h'
      have hsame := NodeData.methodCall.inj (Option.some.inj (hdata.symm.trans hdata'))
      obtain ⟨rfl, hname, hids⟩ := hsame
      cases hids
      rw [htarget.unique htarget', Identifier.text_injective hname, hargs.unique hargs']
    | _ => simp [At, hdata] at h'
  | .field target name, e', _, ⟨t, hdata, htarget⟩, h' => by
    cases e' with
    | field target' name' =>
      obtain ⟨t', hdata', htarget'⟩ := h'
      have hsame := NodeData.methodCall.inj (Option.some.inj (hdata.symm.trans hdata'))
      obtain ⟨rfl, hname, -⟩ := hsame
      rw [htarget.unique htarget', Identifier.text_injective hname]
    | _ => simp [At, hdata] at h'
  | .assign name value, e', _, ⟨v, hdata, hvalue⟩, h' => by
    cases e' with
    | assign name' value' =>
      obtain ⟨v', hdata', hvalue'⟩ := h'
      have hsame := NodeData.assign.inj (Option.some.inj (hdata.symm.trans hdata'))
      obtain ⟨hname, rfl⟩ := hsame
      rw [Identifier.text_injective hname, hvalue.unique hvalue']
    | _ => simp [At, hdata] at h'
  | .invokeNew className args, e', _, ⟨ids, hdata, hargs⟩, h' => by
    cases e' with
    | invokeNew className' args' =>
      obtain ⟨ids', hdata', hargs'⟩ := h'
      have hsame := NodeData.invokeNew.inj (Option.some.inj (hdata.symm.trans hdata'))
      obtain ⟨hname, rfl⟩ := hsame
      rw [ClassName.text_injective hname, hargs.unique hargs']
    | _ => simp [At, hdata] at h'

theorem AllAt.unique {ast : Ast} : ∀ {es es' : List Expr} {ids : List NodeId}, AllAt ast es ids →
    AllAt ast es' ids → es = es'
  | [], [], _, _, _ => rfl
  | [], _ :: _, _, rfl, ⟨_, _, hids, _⟩ => by cases hids
  | _ :: _, [], _, ⟨_, _, hids, _⟩, rfl => by cases hids
  | _ :: _, _ :: _, _, ⟨_, _, hids, he, hes⟩, ⟨_, _, hids', he', hes'⟩ => by
    cases hids.symm.trans hids'
    rw [he.unique he', hes.unique hes']

end

end Expr

end ScriptAnalysis

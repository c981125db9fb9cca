import ScriptAnalysis.Workspace.Analyzer

/-!
# What a query does

A query answers, or is interrupted, and leaves an analyzer.  For each of the queries of an analyzer
one equation says what it answers and what it leaves; a sequence of queries is taken apart by
`Query.run_bind`.
-/

namespace ScriptAnalysis

namespace Query

variable {α β : Type} (a : Analyzer) (file : FileId) (text : String)

theorem run_bind (q : Query α) (f : α → Query β) :
    (q >>= f).run.run a =
      match q.run.run a with
      | (.ok x, a') => (f x).run.run a'
      | (.error e, a') => (.error e, a') := by
  have hrun : (q >>= f).run.run a =
      (ExceptT.bindCont f (q.run.run a).1).run (q.run.run a).2 := rfl
  rw [hrun]
  cases q.run.run a with
  | mk x a' =>
    cases x with
    | ok x => rfl
    | error e => rfl

theorem run_get : (get : Query Analyzer).run.run a = (.ok a, a) := rfl

theorem run_modify (f : Analyzer → Analyzer) :
    (modify f : Query PUnit).run.run a = (.ok ⟨⟩, f a) := rfl

theorem run_number (analysis : Analysis) :
    (number analysis).run.run a = (.ok ⟨a.made, analysis⟩, { a with made := a.made + 1 }) := rfl

theorem run_ofCache (f : RecencyCache Snapshot → α × RecencyCache Snapshot) :
    (ofCache f).run.run a = (.ok (f a.cache).1, { a with cache := (f a.cache).2 }) := rfl

theorem run_keep (snapshot : Snapshot) :
    (keep file text snapshot).run.run a =
      (.ok (a.cache.keep a.policy file text snapshot).1,
        { a with cache := (a.cache.keep a.policy file text snapshot).2 }) := rfl

theorem run_consult (ask : ClassLookup → Consulted α) :
    (consult file ask).run.run a =
      (.ok (ask (OtherFile.lookup (a.othersOf file))).value,
        a.noteUses (a.othersOf file) (ask (OtherFile.lookup (a.othersOf file))).asked) := rfl

theorem run_make (marksLeft : Option Nat) :
    (make file text marksLeft).run.run a =
      match a.toolchain.analyse file text ((a.sources.get? file).getD (.detached text))
        (OtherFile.lookup (a.othersOf file)) marksLeft with
      | .ok analysis =>
        (.ok ⟨a.made, analysis.value⟩,
          { a.noteUses (a.othersOf file) analysis.asked with made := a.made + 1 })
      | .error e => (.error e, a) := by
  unfold make
  rw [run_bind, run_get]
  dsimp only
  cases a.toolchain.analyse file text ((a.sources.get? file).getD (.detached text))
    (OtherFile.lookup (a.othersOf file)) marksLeft with
  | ok analysis =>
    dsimp only
    rw [run_bind, run_modify]
    exact run_number _ _
  | error e => rfl

variable {a file text} in
/-- What is interrupted leaves the analyzer as it was. -/
theorem run_make_error {a' : Analyzer} {marksLeft : Option Nat} {e : Interruption}
    (hrun : (make file text marksLeft).run.run a = (.error e, a')) : a' = a := by
  rw [run_make] at hrun
  split at hrun
  · cases hrun
  · cases hrun
    rfl

theorem run_makeDetached :
    (makeDetached file text).run.run a =
      match a.toolchain.analyse file text (.detached text) .none with
      | .ok analysis => (.ok ⟨a.made, analysis.value⟩, { a with made := a.made + 1 })
      | .error e => (.error e, a) := by
  unfold makeDetached
  rw [run_bind, run_get]
  dsimp only
  cases a.toolchain.analyse file text (.detached text) .none with
  | ok analysis => exact run_number _ _
  | error e => rfl

theorem run_put (marksLeft : Option Nat) :
    (put file text marksLeft).run.run a =
      match a.cache.getFor file text with
      | (some snapshot, cache) => (.ok snapshot, { a with cache })
      | (none, cache) =>
        match (make file text marksLeft).run.run { a with cache } with
        | (.ok snapshot, a') => (keep file text snapshot).run.run a'
        | (.error e, a') => (.error e, a') := by
  unfold put putWith
  rw [run_bind]
  unfold cachedFor
  rw [run_ofCache]
  cases a.cache.getFor file text with
  | mk found cache =>
    cases found with
    | some snapshot => rfl
    | none =>
      dsimp only
      rw [run_bind]
      cases (make file text marksLeft).run.run { a with cache } with
      | mk x a' =>
        cases x with
        | ok s => rfl
        | error e => rfl

end Query

end ScriptAnalysis

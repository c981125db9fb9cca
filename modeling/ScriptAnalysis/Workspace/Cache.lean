import ScriptAnalysis.Ast.Key
import Std.Data.TreeMap.Basic

/-!
# A cache that forgets what was not used for longest

A `RecencyCache` keeps at most one value per file, together with the text from which it was made.
Every access advances a clock, and an entry that is used gets the time of its use; so no two
entries were used last at one time, and the entries are in a definite order of their last use.

Making a value takes long, and others may use the cache meanwhile.  An answer is therefore found
in two steps: `getFor` looks for a value, and `store` adds one that was made afterwards.  Where
both find that someone else has stored a value of the same text, they answer that one, so that all
users of a text share one value.
-/

namespace ScriptAnalysis

/-! ### What to keep -/

structure CachePolicy where
  capacity : Option Nat := some 100
  /-- Values of texts that hold this mark are not kept.  Editors put the mark where they look for
      completions, into a copy of the text that nobody asks for again. -/
  unkeptMark : Option String := some "IntellijIdeaRulezzz"
deriving DecidableEq, Repr

/-- Whether the characters of `mark` stand next to each other somewhere. -/
def holdsMark (mark : List Char) : List Char → Bool
  | [] => mark.isEmpty
  | c :: cs => mark.isPrefixOf (c :: cs) || holdsMark mark cs

namespace CachePolicy

def keepAll : CachePolicy := ⟨none, none⟩

def keeps (policy : CachePolicy) (text : String) : Bool :=
  match policy.unkeptMark with
  | some mark => !holdsMark mark.toList text.toList
  | none => true

end CachePolicy

/-! ### The cache -/

/-- A value, the text from which it was made, and the time of its last use. -/
structure CacheEntry (α : Type) where
  text : String
  value : α
  lastUsed : Nat

/-- Values made from the texts of files. -/
structure RecencyCache (α : Type) where
  entries : Std.TreeMap FileId (CacheEntry α) := ∅
  clock : Nat := 0

namespace RecencyCache

variable {α : Type}

def empty : RecencyCache α := {}

def contains (c : RecencyCache α) (file : FileId) : Bool := c.entries.contains file

def size (c : RecencyCache α) : Nat := c.entries.size

def isEmpty (c : RecencyCache α) : Bool := c.entries.isEmpty

/-- The value of a file and a text, without counting as a use. -/
def peek (c : RecencyCache α) (file : FileId) (text : String) : Option α :=
  match c.entries[file]? with
  | some entry => if entry.text = text then some entry.value else none
  | none => none

/-- The entries, the one not used for longest first. -/
def toList (c : RecencyCache α) : List (FileId × CacheEntry α) :=
  c.entries.toList.mergeSort fun a b => decide (a.2.lastUsed ≤ b.2.lastUsed)

/-- The files, the one not used for longest first. -/
def files (c : RecencyCache α) : List FileId := c.toList.map Prod.fst

/-- Advances the clock, and uses the entry of a file if its text is wanted. -/
def access (c : RecencyCache α) (file : FileId) (wanted : String → Bool) :
    Option α × RecencyCache α :=
  let now := c.clock + 1
  match c.entries[file]? with
  | some entry =>
    if wanted entry.text then
      (some entry.value, ⟨c.entries.insert file { entry with lastUsed := now }, now⟩)
    else (none, { c with clock := now })
  | none => (none, { c with clock := now })

/-- Uses the value of a file, whatever its text. -/
def get (c : RecencyCache α) (file : FileId) : Option α × RecencyCache α :=
  c.access file fun _ => true

/-- Uses the value of a file if it was made from this text. -/
def getFor (c : RecencyCache α) (file : FileId) (text : String) : Option α × RecencyCache α :=
  c.access file (· == text)

/-- Enters a value as the one used last. -/
def insert (c : RecencyCache α) (file : FileId) (text : String) (value : α) : RecencyCache α :=
  let now := c.clock + 1
  ⟨c.entries.insert file ⟨text, value, now⟩, now⟩

def erase (c : RecencyCache α) (file : FileId) : RecencyCache α :=
  { c with entries := c.entries.erase file }

def clear (c : RecencyCache α) : RecencyCache α := { c with entries := ∅ }

/-- Forgets the entry not used for longest. -/
def dropOldest (c : RecencyCache α) : RecencyCache α :=
  match c.files with
  | [] => c
  | file :: _ => c.erase file

/-- Forgets entries until no more than `capacity` are left. -/
def trim (c : RecencyCache α) : Option Nat → RecencyCache α
  | none => c
  | some capacity => Nat.repeat dropOldest (c.size - capacity) c

/-- Stores a value made from a text.  If there is one of the same text by now, that one is used
    instead.  Answers the value that is valid from now on. -/
def store (c : RecencyCache α) (capacity : Option Nat) (file : FileId) (text : String)
    (value : α) : α × RecencyCache α :=
  match c.getFor file text with
  | (some other, c) => (other, c)
  | (none, c) => (value, (c.insert file text value).trim capacity)

/-- Stores a value made from a text, unless values of such texts are not kept.  Answers the value
    that is valid from now on. -/
def keep (policy : CachePolicy) (c : RecencyCache α) (file : FileId) (text : String) (value : α) :
    α × RecencyCache α :=
  if policy.keeps text then c.store policy.capacity file text value else (value, c)

end RecencyCache

end ScriptAnalysis

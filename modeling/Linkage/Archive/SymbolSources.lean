/-!
# Symbol sources

A table of the texts that the symbols of a package had when they were compiled. Its symbols ascend. A symbol is stale if
its text has changed since.
-/
namespace Linkage

/-- Texts by symbol. The symbols ascend, so two tables with the same texts are equal. -/
structure SymbolSources where
  entries : List (String × String)
  ascending : entries.Pairwise (·.1 < ·.1)
  deriving DecidableEq

namespace SymbolSources

/-- Put a text into its place, instead of the one that its symbol had. -/
def insertEntry (symbol text : String) : List (String × String) → List (String × String)
  | [] => [(symbol, text)]
  | (s, t) :: rest =>
    if symbol < s then (symbol, text) :: (s, t) :: rest
    else if symbol = s then (symbol, text) :: rest
    else (s, t) :: insertEntry symbol text rest

theorem mem_insertEntry {symbol text : String} {entries : List (String × String)} {e : String × String}
    (h : e ∈ insertEntry symbol text entries) : e.1 = symbol ∨ e ∈ entries := by
  induction entries with
  | nil => simp_all [insertEntry]
  | cons head rest ih =>
    obtain ⟨s, t⟩ := head
    simp only [insertEntry] at h
    split at h
    · rcases List.mem_cons.1 h with rfl | h
      · exact .inl rfl
      · exact .inr h
    · split at h
      · rcases List.mem_cons.1 h with rfl | h
        · exact .inl rfl
        · exact .inr (List.mem_cons_of_mem _ h)
      · rcases List.mem_cons.1 h with rfl | h
        · exact .inr List.mem_cons_self
        · exact (ih h).imp id (List.mem_cons_of_mem _)

theorem pairwise_insertEntry (symbol text : String) {entries : List (String × String)}
    (h : entries.Pairwise (·.1 < ·.1)) : (insertEntry symbol text entries).Pairwise (·.1 < ·.1) := by
  induction entries with
  | nil => simp [insertEntry]
  | cons head rest ih =>
    obtain ⟨s, t⟩ := head
    obtain ⟨least, ordered⟩ := List.pairwise_cons.1 h
    simp only [insertEntry]
    split
    case isTrue before =>
      refine List.pairwise_cons.2 ⟨fun e member => ?_, h⟩
      rcases List.mem_cons.1 member with rfl | member
      · exact before
      · exact String.lt_trans before (least e member)
    case isFalse notBefore =>
      split
      case isTrue same =>
        subst same
        exact List.pairwise_cons.2 ⟨least, ordered⟩
      case isFalse different =>
        refine List.pairwise_cons.2 ⟨fun e member => ?_, ih ordered⟩
        rcases mem_insertEntry member with same | member
        · rw [same]
          exact Std.lt_of_le_of_ne (String.not_lt.1 notBefore) (Ne.symm different)
        · exact least e member

def empty : SymbolSources := ⟨[], .nil⟩

def insert (t : SymbolSources) (symbol text : String) : SymbolSources :=
  ⟨insertEntry symbol text t.entries, pairwise_insertEntry symbol text t.ascending⟩

/-- The table with the given texts; of two texts for one symbol the later one counts. -/
def ofList (entries : List (String × String)) : SymbolSources :=
  entries.foldl (fun t (symbol, text) => t.insert symbol text) empty

def get? (t : SymbolSources) (symbol : String) : Option String := t.entries.lookup symbol

/-- The symbols of `current` whose text is not the one recorded in `t`. -/
def stale (t current : SymbolSources) : List String :=
  (current.entries.filter fun (symbol, text) => t.get? symbol ≠ some text).map (·.1)

end SymbolSources
end Linkage

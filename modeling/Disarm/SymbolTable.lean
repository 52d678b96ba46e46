import Disarm.Word
/-!
Symbols by address. A table holds at most one symbol at each address, in ascending order, and a
later insertion replaces an earlier one. An address belongs to the nearest symbol at or below it,
unless that symbol has a size and ends before the address.
-/

namespace Disarm

/-- A named place. Its size is zero if that is not known. -/
structure Symbol where
  start : Addr
  size : Word
  name : String
deriving DecidableEq, Repr

namespace Symbol

/-- A symbol covers the addresses from its start on, up to its size if it has one. -/
def Covers (s : Symbol) (a : Addr) : Prop := s.start ≤ a ∧ (s.size = 0 ∨ a - s.start < s.size)

instance (s : Symbol) (a : Addr) : Decidable (s.Covers a) := inferInstanceAs (Decidable (_ ∧ _))

def place (s : Symbol) : List Symbol → List Symbol
  | [] => [s]
  | t :: l =>
    if s.start < t.start then s :: t :: l
    else if s.start = t.start then s :: l
    else t :: place s l

theorem mem_of_mem_place {s t : Symbol} {l : List Symbol} (h : t ∈ place s l) : t = s ∨ t ∈ l := by
  induction l with
  | nil => simpa [place] using h
  | cons u l ih =>
    simp only [place] at h
    split at h
    · simpa using h
    · split at h
      · rcases List.mem_cons.1 h with h | h
        · exact .inl h
        · exact .inr (List.mem_cons_of_mem _ h)
      · rcases List.mem_cons.1 h with h | h
        · exact .inr (h ▸ List.mem_cons_self)
        · exact (ih h).imp_right (List.mem_cons_of_mem _)

theorem pairwise_place {s : Symbol} {l : List Symbol} (h : l.Pairwise (·.start < ·.start)) :
    (place s l).Pairwise (·.start < ·.start) := by
  induction l with
  | nil => simp [place]
  | cons t l ih =>
    obtain ⟨hl, h⟩ := List.pairwise_cons.1 h
    simp only [place]
    split
    · next lt =>
      refine List.pairwise_cons.2 ⟨fun u hu => ?_, List.pairwise_cons.2 ⟨hl, h⟩⟩
      rcases List.mem_cons.1 hu with rfl | hu
      · exact lt
      · exact BitVec.lt_trans lt (hl u hu)
    · split
      · next eq => exact List.pairwise_cons.2 ⟨fun u hu => eq ▸ hl u hu, h⟩
      · next nlt ne =>
        refine List.pairwise_cons.2 ⟨fun u hu => ?_, ih h⟩
        rcases mem_of_mem_place hu with rfl | hu
        · exact BitVec.not_le.1 fun le => ne (BitVec.le_antisymm le (BitVec.not_lt.1 nlt))
        · exact hl u hu

end Symbol

structure SymbolTable where
  toList : List Symbol
  ascending : toList.Pairwise (·.start < ·.start)

namespace SymbolTable

instance : EmptyCollection SymbolTable where
  emptyCollection := ⟨[], .nil⟩

instance : Inhabited SymbolTable := ⟨∅⟩

/-- Adds a symbol; one at the same address is replaced. -/
def insert (t : SymbolTable) (s : Symbol) : SymbolTable :=
  ⟨s.place t.toList, Symbol.pairwise_place t.ascending⟩

def ofList (l : List Symbol) : SymbolTable := l.foldl insert ∅

def size (t : SymbolTable) : Nat := t.toList.length

def isEmpty (t : SymbolTable) : Bool := t.toList.isEmpty

def get? (t : SymbolTable) (a : Addr) : Option String :=
  (t.toList.find? (·.start = a)).map Symbol.name

/-- The lowest address with a name. -/
def find? (t : SymbolTable) (name : String) : Option Addr :=
  (t.toList.find? (·.name = name)).map Symbol.start

/-- The nearest symbol at or below an address. -/
def nearest? (t : SymbolTable) (a : Addr) : Option Symbol :=
  (t.toList.filter (·.start ≤ a)).getLast?

/-- The symbol an address belongs to and the distance from its start. -/
def owner? (t : SymbolTable) (a : Addr) : Option (String × Word) :=
  match t.nearest? a with
  | some s => if s.Covers a then some (s.name, a - s.start) else none
  | none => none

end SymbolTable

end Disarm

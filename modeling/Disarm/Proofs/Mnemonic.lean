import Disarm.Proofs.Visible
import Mathlib.Algebra.Ring.Nat
/-!
Reading a mnemonic. A condition has two letters or none, and what an entry glues on after it varies
in length by one letter at most, so lengths tell where the condition ends. A name that continues
another one continues it by letters that are no condition. Main statement: the mnemonic of a word
gives the name, the condition and the suffixes back.
-/

namespace Disarm

theorem Condition.length_suffix (c : Condition) :
    c.suffix.toList.length = 0 ∨ c.suffix.toList.length = 2 := by
  revert c
  decide +kernel

theorem Condition.suffix_inj {c d : Condition} (h : c.suffix = d.suffix) : c = d := by
  revert c d
  decide +kernel

namespace Suffix

def least : Suffix → Nat
  | setFlags | comparePc | long | rounding => 0
  | precision | transferPrecision => 1
  | blockMode | stackMode => 2

def slack : Suffix → Nat
  | setFlags | comparePc | long | rounding => 1
  | precision | transferPrecision | blockMode | stackMode => 0

theorem length_text (w : Word) (s : Suffix) :
    s.least ≤ (s.text w).toList.length ∧ (s.text w).toList.length ≤ s.least + s.slack := by
  have mark (b : Prop) [Decidable b] (t : String) (ht : t.toList.length = 1) :
      (if b then t else "").toList.length ≤ 1 := by
    split
    · exact Nat.le_of_eq ht
    · exact Nat.zero_le 1
  cases s with
  | setFlags => exact ⟨Nat.zero_le _, mark _ "s" rfl⟩
  | comparePc => exact ⟨Nat.zero_le _, mark _ "p" rfl⟩
  | long => exact ⟨Nat.zero_le _, mark _ "l" rfl⟩
  | blockMode =>
    have all : ∀ i : Fin 4, (blockModes.get i).toList.length = 2 := by decide
    exact ⟨Nat.le_of_eq (all _).symm, Nat.le_of_eq (all _)⟩
  | stackMode =>
    have all : ∀ i : Fin 8, (stackModes.get i).toList.length = 2 := by decide
    exact ⟨Nat.le_of_eq (all _).symm, Nat.le_of_eq (all _)⟩
  | precision =>
    have all : ∀ i : Fin 4, (precisions.get i).toList.length = 1 := by decide
    exact ⟨Nat.le_of_eq (all _).symm, Nat.le_of_eq (all _)⟩
  | transferPrecision =>
    have all : ∀ i : Fin 4, (precisions.get i).toList.length = 1 := by decide
    exact ⟨Nat.le_of_eq (all _).symm, Nat.le_of_eq (all _)⟩
  | rounding =>
    have all : ∀ i : Fin 4, (roundings.get i).toList.length ≤ 1 := by decide
    exact ⟨Nat.zero_le _, all _⟩

end Suffix

namespace Entry

def glue (e : Entry) (w : Word) : String := String.join (e.suffixes.map (Suffix.text w))

def least (e : Entry) : Nat := (e.suffixes.map Suffix.least).sum

def slack (e : Entry) : Nat := (e.suffixes.map Suffix.slack).sum

theorem length_glue (e : Entry) (w : Word) :
    e.least ≤ (e.glue w).toList.length ∧ (e.glue w).toList.length ≤ e.least + e.slack := by
  unfold glue least slack
  rw [String.toList_join]
  induction e.suffixes with
  | nil => exact ⟨Nat.le_refl 0, Nat.le_refl 0⟩
  | cons s l ih =>
    have hs := s.length_text w
    simp only [List.map_cons, List.flatMap_cons, List.length_append, List.sum_cons]
    omega

theorem length_condition (e : Entry) (w : Word) :
    (e.condition w).toList.length = 0 ∨ (e.condition w).toList.length = 2 := by
  unfold condition
  split
  · exact .inl rfl
  · exact Condition.length_suffix _

theorem toList_mnemonic (e : Entry) (w : Word) :
    (e.mnemonic w).toList = e.name.toList ++ ((e.condition w).toList ++ (e.glue w).toList) := by
  rw [mnemonic, String.toList_append, String.toList_append, List.append_assoc]
  rfl

theorem slack_le {e : Entry} (h : e ∈ table) : e.slack ≤ 1 := by
  revert e
  decide +kernel

/-- Lengths tell where the condition ends. -/
theorem condition_eq_of_append_eq {d e : Entry} {v w : Word} (hd : d ∈ table) (he : e ∈ table)
    (hl : d.least = e.least)
    (h : (d.condition v).toList ++ (d.glue v).toList =
      (e.condition w).toList ++ (e.glue w).toList) :
    d.condition v = e.condition w ∧ d.glue v = e.glue w := by
  have hlen := congrArg List.length h
  rw [List.length_append, List.length_append] at hlen
  have gd := d.length_glue v
  have ge := e.length_glue w
  have sd := slack_le hd
  have se := slack_le he
  have cd := d.length_condition v
  have ce := e.length_condition w
  obtain ⟨hc, hg⟩ := List.append_inj h (by omega)
  exact ⟨String.toList_inj.1 hc, String.toList_inj.1 hg⟩

/-- The name of `e` continues the one of `d` by one letter, with nothing glued on in either entry, or
by letters that are no condition. -/
def Continues (d e : Entry) : Prop :=
  let more := e.name.toList.drop d.name.toList.length
  d.suffixes = [] ∧ (more.length = 1 ∧ e.suffixes = [] ∨
    2 ≤ more.length ∧ ∀ c : Condition, more ≠ c.suffix.toList)

instance (d e : Entry) : Decidable (d.Continues e) := inferInstanceAs (Decidable (_ ∧ _))

/-- Two entries of one name, told apart by what is glued on or by the operands. -/
def Twin (d e : Entry) : Prop :=
  d.suffixes = [.stackMode] ∧ e.suffixes = [.blockMode] ∨
    d.slots = [.exchangeBranch] ∧ e.slots = [.rm] ∨
    d.slots = [.statusFields, .rm] ∧ e.slots = [.statusFields, .flexible] ∧ e.pattern.bit 25

instance (d e : Entry) : Decidable (d.Twin e) := inferInstanceAs (Decidable (_ ∨ _))

/-- Entries whose mnemonics do not run together. Names that start differently need no more. -/
def Apart (d e : Entry) : Prop :=
  d.name.toList.head? ≠ e.name.toList.head? ∨
    (d.name = e.name → d.least = e.least ∧ (d.Undefined ∨ d.Twin e)) ∧
    (d.name.toList <+: e.name.toList → d.name = e.name ∨ d.Continues e) ∧
    (e.name.toList <+: d.name.toList → d.name = e.name ∨ e.Continues d)

instance (d e : Entry) : Decidable (d.Apart e) := inferInstanceAs (Decidable (_ ∨ _))

theorem eq_or_apart {d e : Entry} (hd : d ∈ table) (he : e ∈ table) :
    d = e ∨ d.Apart e ∨ e.Apart d := by
  have pairs : table.Pairwise Apart := by decide +kernel
  exact List.Pairwise.forall_of_forall_of_flip (R := fun d e => d = e ∨ d.Apart e ∨ e.Apart d)
    (fun _ _ => .inl rfl) (pairs.imp fun h => .inr (.inl h)) (pairs.imp fun h => .inr (.inr h)) hd he

theorem name_ne_empty {e : Entry} (h : e ∈ table) : e.name.toList ≠ [] := by
  revert e
  decide +kernel

theorem head?_eq_of_leading {d e : Entry} (hd : d ∈ table) (h : d.name.toList <+: e.name.toList) :
    d.name.toList.head? = e.name.toList.head? := by
  obtain ⟨more, hm⟩ := h
  obtain ⟨c, l, hc⟩ := List.exists_cons_of_ne_nil (name_ne_empty hd)
  rw [← hm, hc]
  rfl

theorem continues_of_leading {d e : Entry} (hd : d ∈ table) (he : e ∈ table)
    (h : d.name.toList <+: e.name.toList) : d.name = e.name ∨ d.Continues e := by
  have head := head?_eq_of_leading hd h
  rcases eq_or_apart hd he with rfl | (other | apart) | (other | apart)
  · exact .inl rfl
  · exact absurd head other
  · exact apart.2.1 h
  · exact absurd head.symm other
  · exact (apart.2.2 h).imp_left Eq.symm

theorem twins_of_name_eq {d e : Entry} (hd : d ∈ table) (he : e ∈ table) (h : d.name = e.name)
    (hu : ¬d.Undefined) : d = e ∨ d.Twin e ∨ e.Twin d := by
  rcases eq_or_apart hd he with same | (other | apart) | (other | apart)
  · exact .inl same
  · exact absurd (by rw [h]) other
  · exact .inr (.inl ((apart.1 h).2.resolve_left hu))
  · exact absurd (by rw [h]) other
  · exact .inr (.inr ((apart.1 h.symm).2.resolve_left fun u => hu (h.trans u)))

theorem least_eq_of_name_eq {d e : Entry} (hd : d ∈ table) (he : e ∈ table)
    (h : d.name = e.name) : d.least = e.least := by
  rcases eq_or_apart hd he with rfl | (other | apart) | (other | apart)
  · rfl
  · exact absurd (by rw [h]) other
  · exact (apart.1 h).1
  · exact absurd (by rw [h]) other
  · exact (apart.1 h.symm).1.symm

theorem name_eq_of_continued {d e : Entry} {v w : Word} {more : List Char} (hd : d ∈ table)
    (he : e ∈ table) (hname : e.name.toList = d.name.toList ++ more)
    (h : (d.condition v).toList ++ (d.glue v).toList =
      more ++ ((e.condition w).toList ++ (e.glue w).toList)) : d.name = e.name := by
  refine (continues_of_leading hd he ⟨more, hname.symm⟩).resolve_right ?_
  rintro ⟨hs, hmore⟩
  rw [hname, List.drop_left] at hmore
  have glue (f : Entry) (u : Word) (hf : f.suffixes = []) : (f.glue u).toList = [] := by
    rw [glue, hf]
    rfl
  rw [glue d v hs, List.append_nil] at h
  have cd := d.length_condition v
  have hlen := congrArg List.length h
  simp only [List.length_append] at hlen
  -- One letter more is no condition by its length; two or more are none by their text.
  rcases hmore with ⟨one, hs'⟩ | ⟨two, other⟩
  · have ce := e.length_condition w
    rw [glue e w hs', List.length_nil] at hlen
    omega
  · have rest : (e.condition w).toList ++ (e.glue w).toList = [] := by
      apply List.eq_nil_of_length_eq_zero
      rw [List.length_append]
      omega
    rw [rest, List.append_nil] at h
    unfold condition at h
    split at h
    · rw [← h] at two
      exact absurd two (by decide)
    · exact other _ h.symm

theorem name_eq_of_mnemonic_eq {d e : Entry} {v w : Word} (hd : d ∈ table) (he : e ∈ table)
    (h : d.mnemonic v = e.mnemonic w) : d.name = e.name := by
  have h := congrArg String.toList h
  rw [toList_mnemonic, toList_mnemonic] at h
  rcases List.append_eq_append_iff.1 h with ⟨more, hn, ht⟩ | ⟨more, hn, ht⟩
  · exact name_eq_of_continued hd he hn ht
  · exact (name_eq_of_continued he hd hn ht).symm

/-- A mnemonic gives name, condition and suffixes back. -/
theorem mnemonic_inj {d e : Entry} {v w : Word} (hd : d ∈ table) (he : e ∈ table)
    (h : d.mnemonic v = e.mnemonic w) :
    d.name = e.name ∧ d.condition v = e.condition w ∧ d.glue v = e.glue w := by
  have hn := name_eq_of_mnemonic_eq hd he h
  have h := congrArg String.toList h
  rw [toList_mnemonic, toList_mnemonic, hn] at h
  exact ⟨hn, condition_eq_of_append_eq hd he (least_eq_of_name_eq hd he hn)
    (List.append_cancel_left h)⟩

end Entry

end Disarm

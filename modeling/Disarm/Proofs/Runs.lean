import Disarm.Proofs.Visible
/-!
Reading back what was put together. An outcome tells the side of an alternative it is from, a run
of a class of characters ends where the class does, and a list is read back from between its
separators.
-/

namespace Disarm

/-! ### Alternatives -/

section alternatives

variable {α : Type} {x x' y y' : α}

/-- Where no outcome belongs to both sides, an outcome tells the side it is from. -/
theorem alternative_inj {p q : Prop} [Decidable p] [Decidable q] (first : x ≠ y') (second : y ≠ x')
    (h : (if p then x else y) = if q then x' else y') :
    (p ↔ q) ∧ (p → x = x') ∧ (¬p → y = y') := by
  by_cases hp : p
  · rw [if_pos hp] at h
    by_cases hq : q
    · rw [if_pos hq] at h
      exact ⟨iff_of_true hp hq, fun _ => h, fun np => absurd hp np⟩
    · rw [if_neg hq] at h
      exact absurd h first
  · rw [if_neg hp] at h
    by_cases hq : q
    · rw [if_pos hq] at h
      exact absurd h second
    · rw [if_neg hq] at h
      exact ⟨iff_of_false hp hq, fun hp' => absurd hp' hp, fun _ => h⟩

theorem alternative_inj_bool {b c : Bool} (first : x ≠ y') (second : y ≠ x')
    (h : (if b then x else y) = if c then x' else y') :
    b = c ∧ (b = true → x = x') ∧ (b = false → y = y') := by
  obtain ⟨side, left, right⟩ := alternative_inj first second h
  exact ⟨Bool.eq_iff_iff.2 side, left, fun no => right (Bool.eq_false_iff.1 no)⟩

end alternatives

/-! ### Runs -/

/-- A list does not open with a member of a class. -/
def OpensOutside {α : Type} (p : α → Prop) (l : List α) : Prop := ∀ a ∈ l.head?, ¬p a

/-- A run of a class ends where the class does. -/
theorem run_inj {α : Type} {p : α → Prop} {s t r u : List α} (hs : ∀ a ∈ s, p a)
    (ht : ∀ a ∈ t, p a) (hr : OpensOutside p r) (hu : OpensOutside p u) (h : s ++ r = t ++ u) :
    s = t ∧ r = u := by
  induction s generalizing t with
  | nil =>
    cases t with
    | nil => exact ⟨rfl, h⟩
    | cons b t =>
      rw [List.nil_append] at h
      exact absurd (ht b List.mem_cons_self) (hr b (h ▸ rfl))
  | cons a s ih =>
    cases t with
    | nil =>
      rw [List.nil_append] at h
      exact absurd (hs a List.mem_cons_self) (hu a (h ▸ rfl))
    | cons b t =>
      obtain ⟨rfl, rest⟩ := List.cons.inj h
      obtain ⟨rfl, e⟩ := ih (fun c hc => hs c (List.mem_cons_of_mem a hc))
        (fun c hc => ht c (List.mem_cons_of_mem a hc)) rest
      exact ⟨rfl, e⟩

namespace Text

def Outside (p : Char → Prop) (s : String) : Prop := OpensOutside p s.toList

variable {p : Char → Prop} {s t r u : String}

theorem run_inj (hs : Over p s) (ht : Over p t) (hr : Outside p r) (hu : Outside p u)
    (h : s ++ r = t ++ u) : s = t ∧ r = u := by
  have hl := congrArg String.toList h
  rw [String.toList_append, String.toList_append] at hl
  obtain ⟨e, f⟩ := Disarm.run_inj hs ht hr hu hl
  exact ⟨String.toList_inj.1 e, String.toList_inj.1 f⟩

theorem outside_empty : Outside p "" := fun _ h => nomatch h

theorem outside_append (hs : Over (fun c => ¬p c) s) (filled : s ≠ "") (t : String) :
    Outside p (s ++ t) := by
  obtain ⟨c, l, e⟩ := List.exists_cons_of_ne_nil fun e => filled (String.toList_eq_nil_iff.1 e)
  intro d hd
  rw [String.toList_append, e] at hd
  exact hs d (e ▸ Option.some.inj hd ▸ List.mem_cons_self)

end Text

open Text

/-! ### Lists in a text -/

section lists

variable {α : Type} {p : α → Prop} {a : α} {sep : List α}

theorem opensOutside_flatMap (ha : ¬p a) (ls : List (List α)) :
    OpensOutside p (ls.flatMap (a :: sep ++ ·)) := by
  intro b hb
  cases ls with
  | nil => cases hb
  | cons l ls => exact Option.some.inj hb ▸ ha

/-- Runs behind separators are read back one by one. -/
theorem flatMap_inj (ha : ¬p a) {ls ms : List (List α)} (hl : ∀ l ∈ ls, ∀ b ∈ l, p b)
    (hm : ∀ m ∈ ms, ∀ b ∈ m, p b)
    (h : ls.flatMap (a :: sep ++ ·) = ms.flatMap (a :: sep ++ ·)) : ls = ms := by
  induction ls generalizing ms with
  | nil =>
    cases ms with
    | nil => rfl
    | cons m ms => cases h
  | cons l ls ih =>
    cases ms with
    | nil => cases h
    | cons m ms =>
      rw [List.flatMap_cons, List.flatMap_cons, List.append_assoc, List.append_assoc] at h
      obtain ⟨rfl, rest⟩ := run_inj (hl l List.mem_cons_self) (hm m List.mem_cons_self)
        (opensOutside_flatMap ha ls) (opensOutside_flatMap ha ms) (List.append_cancel_left h)
      rw [ih (fun k hk => hl k (List.mem_cons_of_mem l hk))
        (fun k hk => hm k (List.mem_cons_of_mem l hk)) rest]

theorem intercalate_inj (ha : ¬p a) {ls ms : List (List α)} (hl : ∀ l ∈ ls, l ≠ [] ∧ ∀ b ∈ l, p b)
    (hm : ∀ m ∈ ms, m ≠ [] ∧ ∀ b ∈ m, p b)
    (h : (a :: sep).intercalate ls = (a :: sep).intercalate ms) : ls = ms := by
  have filled {l : List α} {ls : List (List α)} (hl : l ≠ []) :
      (a :: sep).intercalate (l :: ls) ≠ [] := by
    rw [intercalate_cons]
    exact fun e => hl (List.append_eq_nil_iff.1 e).1
  cases ls with
  | nil =>
    cases ms with
    | nil => rfl
    | cons m ms => exact absurd h.symm (filled (hm m List.mem_cons_self).1)
  | cons l ls =>
    cases ms with
    | nil => exact absurd h (filled (hl l List.mem_cons_self).1)
    | cons m ms =>
      rw [intercalate_cons, intercalate_cons] at h
      obtain ⟨rfl, rest⟩ := run_inj (hl l List.mem_cons_self).2 (hm m List.mem_cons_self).2
        (opensOutside_flatMap ha ls) (opensOutside_flatMap ha ms) h
      rw [flatMap_inj ha (fun k hk => (hl k (List.mem_cons_of_mem l hk)).2)
        (fun k hk => (hm k (List.mem_cons_of_mem l hk)).2) rest]

/-- What stands behind a number of runs is read back, whatever it is. -/
theorem intercalate_concat_inj (ha : ¬p a) {ls ms : List (List α)} {x y : List α}
    (hl : ∀ l ∈ ls, ∀ b ∈ l, p b) (hm : ∀ m ∈ ms, ∀ b ∈ m, p b) (len : ls.length = ms.length)
    (h : (a :: sep).intercalate (ls ++ [x]) = (a :: sep).intercalate (ms ++ [y])) : x = y := by
  induction ls generalizing ms with
  | nil =>
    rw [List.eq_nil_of_length_eq_zero len.symm] at h
    simpa only [List.nil_append, List.intercalate_singleton] using h
  | cons l ls ih =>
    cases ms with
    | nil => cases len
    | cons m ms =>
      have more (ks : List (List α)) (z : List α) : ks ++ [z] ≠ [] := by simp
      rw [List.cons_append, List.cons_append, List.intercalate_cons_of_ne_nil (more ls x),
        List.intercalate_cons_of_ne_nil (more ms y), List.append_assoc, List.append_assoc] at h
      have separated (k : List α) : OpensOutside p (a :: sep ++ k) :=
        fun b hb => Option.some.inj hb ▸ ha
      obtain ⟨-, rest⟩ := run_inj (hl l List.mem_cons_self) (hm m List.mem_cons_self)
        (separated _) (separated _) h
      exact ih (fun k hk => hl k (List.mem_cons_of_mem l hk))
        (fun k hk => hm k (List.mem_cons_of_mem m hk)) (Nat.succ.inj len)
        (List.append_cancel_left rest)

end lists

end Disarm

import Mathlib.Algebra.GroupWithZero.Nat
import Mathlib.Data.List.Basic
import Mathlib.Data.List.Infix
/-!
# Delimited — texts cut at a separator

`List.splitOn` and `List.intercalate` are each other's inverses on pieces without the separator.  A text may also be cut
so that a separator at its end brings no empty piece after it (`splitTerminator`); then pieces come back from their text
only if the last one is not empty, and a piece is empty where the text begins with a separator or has two in a row.
-/
namespace Wolf
namespace Delimited

variable {α : Type} [DecidableEq α] {a : α} {l : List α} {ps : List (List α)}

/-- The pieces between the separators; an empty one at the end is left out. -/
def splitTerminator (a : α) (l : List α) : List (List α) :=
  if (l.splitOn a).getLast? = some [] then (l.splitOn a).dropLast else l.splitOn a

theorem splitOn_cons_self (l : List α) : (a :: l).splitOn a = [] :: l.splitOn a := by
  simp [List.splitOn, List.splitOnP_cons_eq_if_modifyHead]

theorem splitOn_cons_of_ne {b : α} (h : b ≠ a) (l : List α) : (b :: l).splitOn a = (l.splitOn a).modifyHead (b :: ·) := by
  simp [List.splitOn, List.splitOnP_cons_eq_if_modifyHead, h]

theorem splitOn_ne_nil (a : α) (l : List α) : l.splitOn a ≠ [] := List.splitOnP_ne_nil _ _

theorem notMem_of_mem_splitOn : ∀ {l p : List α}, p ∈ l.splitOn a → a ∉ p
  | [], p, h => by
    rw [List.splitOn_nil, List.mem_singleton] at h
    rw [h]
    exact List.not_mem_nil
  | b :: l, p, h => by
    by_cases hb : b = a
    · rw [hb, splitOn_cons_self] at h
      rcases List.mem_cons.1 h with rfl | h
      · exact List.not_mem_nil
      · exact notMem_of_mem_splitOn h
    · rw [splitOn_cons_of_ne hb] at h
      obtain ⟨q, qs, hq⟩ := List.exists_cons_of_ne_nil (splitOn_ne_nil a l)
      have hpieces : ∀ r ∈ q :: qs, a ∉ r := fun r hr => notMem_of_mem_splitOn (hq ▸ hr)
      rw [hq, List.modifyHead_cons] at h
      rcases List.mem_cons.1 h with rfl | h
      · intro ha
        rcases List.mem_cons.1 ha with rfl | ha
        · exact hb rfl
        · exact hpieces q (List.mem_cons_self ..) ha
      · exact hpieces p (List.mem_cons_of_mem _ h)

theorem mem_splitOn_of_mem_splitTerminator {p : List α} (h : p ∈ splitTerminator a l) : p ∈ l.splitOn a := by
  unfold splitTerminator at h
  split at h
  · exact List.mem_of_mem_dropLast h
  · exact h

theorem notMem_of_mem_splitTerminator {p : List α} (h : p ∈ splitTerminator a l) : a ∉ p :=
  notMem_of_mem_splitOn (mem_splitOn_of_mem_splitTerminator h)

theorem splitTerminator_ne_nil (hl : l ≠ []) : splitTerminator a l ≠ [] := by
  unfold splitTerminator
  split
  · rename_i hlast
    intro hnil
    have hone : l.splitOn a = [[]] := by
      have hpieces := List.dropLast_append_getLast? [] hlast
      rw [← hpieces, hnil, List.nil_append]
    have hback : [a].intercalate (l.splitOn a) = l := List.intercalate_splitOn a
    rw [hone] at hback
    exact hl hback.symm
  · exact splitOn_ne_nil a l

/-- **Pieces come back from their text exactly if the last one is not empty.** -/
theorem splitTerminator_intercalate_iff (hps : ∀ p ∈ ps, a ∉ p) (hne : ps ≠ []) :
    splitTerminator a ([a].intercalate ps) = ps ↔ ps.getLast? ≠ some [] := by
  unfold splitTerminator
  rw [List.splitOn_intercalate a hps hne]
  by_cases hlast : ps.getLast? = some []
  · rw [if_pos hlast]
    refine ⟨fun h => ?_, fun h => absurd hlast h⟩
    have hlen := congrArg List.length h
    rw [List.length_dropLast] at hlen
    have hpos := List.length_pos_of_ne_nil hne
    omega
  · rw [if_neg hlast]
    exact ⟨fun _ => hlast, fun _ => rfl⟩

theorem splitTerminator_nil : splitTerminator a [] = [] := by
  unfold splitTerminator
  rw [List.splitOn_nil]
  exact if_pos rfl

theorem splitTerminator_cons_self (l : List α) : splitTerminator a (a :: l) = [] :: splitTerminator a l := by
  have hne := splitOn_ne_nil a l
  unfold splitTerminator
  rw [splitOn_cons_self, List.getLast?_cons_of_ne_nil hne, List.dropLast_cons_of_ne_nil hne]
  split <;> rfl

theorem splitTerminator_cons_of_ne {b : α} (hb : b ≠ a) (l : List α) : ∃ p,
    splitTerminator a (b :: l) = (b :: p) :: (splitTerminator a l).tail := by
  unfold splitTerminator
  rw [splitOn_cons_of_ne hb]
  obtain ⟨p, ps, hps⟩ := List.exists_cons_of_ne_nil (splitOn_ne_nil a l)
  rw [hps, List.modifyHead_cons]
  cases ps with
  | nil =>
    refine ⟨p, ?_⟩
    rw [if_neg (by simp)]
    split <;> rfl
  | cons q qs =>
    refine ⟨p, ?_⟩
    simp only [List.getLast?_cons_cons, List.dropLast_cons_cons]
    split <;> rfl

/-- **A piece is empty where the text begins with a separator, or has two in a row**; but for the first piece, where it has
two in a row. -/
theorem nil_mem_splitTerminator : ∀ l : List α,
    ([] ∈ splitTerminator a l ↔ [a] <+: l ∨ [a, a] <:+: l) ∧ ([] ∈ (splitTerminator a l).tail ↔ [a, a] <:+: l)
  | [] => by
    rw [splitTerminator_nil]
    simp
  | b :: l => by
    obtain ⟨hall, htail⟩ := nil_mem_splitTerminator l
    have hinfix : [a, a] <:+: b :: l ↔ (b = a ∧ [a] <+: l) ∨ [a, a] <:+: l := by
      rw [List.infix_cons_iff, List.cons_prefix_cons, eq_comm]
    by_cases hb : b = a
    · subst hb
      rw [splitTerminator_cons_self, List.tail_cons, hall, hinfix]
      simp
    · obtain ⟨p, hp⟩ := splitTerminator_cons_of_ne hb l
      rw [hp, List.tail_cons, htail, List.mem_cons, htail, hinfix, List.cons_prefix_cons]
      simp [hb, Ne.symm hb]

omit [DecidableEq α] in
theorem intercalate_front (a : α) (y : List α) : ∀ ps : List (List α), [a].intercalate ps <+: [a].intercalate (ps ++ [y])
  | [] => List.nil_prefix
  | [p] => by
    rw [List.intercalate_singleton, List.singleton_append, List.intercalate_cons_cons]
    exact (List.prefix_append p _).trans (List.prefix_append _ _)
  | p :: q :: ps => by
    have ih := intercalate_front a y (q :: ps)
    rw [List.cons_append, List.cons_append, List.intercalate_cons_cons, List.intercalate_cons_cons]
    exact (List.prefix_append_right_inj _).2 ih

theorem intercalate_splitTerminator (a : α) (l : List α) : [a].intercalate (splitTerminator a l) <+: l := by
  have hback : [a].intercalate (l.splitOn a) = l := List.intercalate_splitOn a
  unfold splitTerminator
  split
  · rename_i hlast
    have hfront := intercalate_front a [] (l.splitOn a).dropLast
    rw [List.dropLast_append_getLast? [] hlast, hback] at hfront
    exact hfront
  · rw [hback]

/-! ## Pieces with their terminators -/

/-- The pieces of a text, each with the separator at its end; only the last may be without. -/
def splitInclusive (a : α) : List α → List (List α)
  | [] => []
  | b :: l =>
    if b = a then [b] :: splitInclusive a l
    else match splitInclusive a l with
      | [] => [[b]]
      | p :: ps => (b :: p) :: ps

theorem splitInclusive_append_cons : ∀ {x : List α} (l : List α), a ∉ x →
    splitInclusive a (x ++ a :: l) = (x ++ [a]) :: splitInclusive a l
  | [], l, _ => by rw [List.nil_append, splitInclusive, if_pos rfl, List.nil_append]
  | b :: x, l, h => by
    rw [List.mem_cons, not_or] at h
    rw [List.cons_append, splitInclusive, if_neg (Ne.symm h.1), splitInclusive_append_cons l h.2]
    rfl

theorem of_mem_splitInclusive : ∀ {l p : List α}, p ∈ splitInclusive a l → ∃ q, a ∉ q ∧ (p = q ++ [a] ∨ p = q)
  | [], _, h => absurd h List.not_mem_nil
  | b :: l, p, h => by
    unfold splitInclusive at h
    split at h
    · rename_i hb
      rcases List.mem_cons.1 h with rfl | h
      · exact ⟨[], List.not_mem_nil, .inl (by rw [hb, List.nil_append])⟩
      · exact of_mem_splitInclusive h
    · rename_i hb
      have hcons : ∀ q, a ∉ q → a ∉ b :: q := fun q hq hmem => by
        rcases List.mem_cons.1 hmem with rfl | hmem
        · exact hb rfl
        · exact hq hmem
      split at h
      · rw [List.mem_singleton.1 h]
        exact ⟨[b], hcons [] List.not_mem_nil, .inr rfl⟩
      · rename_i q qs hl
        rcases List.mem_cons.1 h with rfl | h
        · obtain ⟨r, hr, hq⟩ := of_mem_splitInclusive (hl ▸ List.mem_cons_self ..)
          rcases hq with rfl | rfl
          · exact ⟨b :: r, hcons r hr, .inl rfl⟩
          · exact ⟨b :: q, hcons q hr, .inr rfl⟩
        · exact of_mem_splitInclusive (hl ▸ List.mem_cons_of_mem _ h)

/-! ## Separators outside quotes -/

/-- A separator with an even number of quotes before it. -/
def Cut (a q : α) (l : List α) (i : Nat) : Prop := l[i]? = some a ∧ (l.take i).count q % 2 = 0

/-- **A piece of a text** goes from one cut to the next, or from its start, or to its end; there is no cut inside. -/
structure Piece (a q : α) (l p : List α) (start : Nat) : Prop where
  text : (l.drop start).take p.length = p
  before : start = 0 ∨ Cut a q l (start - 1)
  after : start + p.length = l.length ∨ Cut a q l (start + p.length)
  inside : ∀ i < p.length, ¬ Cut a q l (start + i)

omit [DecidableEq α] in
/-- Where a piece starts, behind the pieces before it and their separators. -/
def startOf (ps : List (List α)) (k : Nat) : Nat := ((ps.take k).map fun p => p.length + 1).sum

theorem cut_here {front : List α} {b q : α} :
    Cut a q (front ++ b :: l) front.length ↔ b = a ∧ front.count q % 2 = 0 := by
  rw [Cut, List.getElem?_append_right (Nat.le_refl _), Nat.sub_self, List.getElem?_cons_zero, List.take_left,
    Option.some.injEq]

/-- **What is read behind `front`**: up to the next cut, or to the end if there is none. -/
structure ReadsPiece (a q : α) (front s p rest : List α) : Prop where
  inside : ∀ i < p.length, ¬ Cut a q (front ++ s) (front.length + i)
  ends : s = p ∧ rest = [] ∨ s = p ++ a :: rest ∧ Cut a q (front ++ s) (front.length + p.length)

section ReadsPiece

variable {q b : α} {front s p rest : List α}

theorem readsPiece_nil : ReadsPiece a q front [] [] [] :=
  ⟨fun i hi => absurd hi (Nat.not_lt_zero i), .inl ⟨rfl, rfl⟩⟩

theorem readsPiece_cut (h : Cut a q (front ++ a :: s) front.length) : ReadsPiece a q front (a :: s) [] s :=
  ⟨fun i hi => absurd hi (Nat.not_lt_zero i), .inr ⟨rfl, h⟩⟩

/-- What is no cut joins the piece. -/
theorem readsPiece_cons (h : ReadsPiece a q (front ++ [b]) s p rest) (hcut : ¬ Cut a q (front ++ b :: s) front.length) :
    ReadsPiece a q front (b :: s) (b :: p) rest := by
  obtain ⟨hinside, hends⟩ := h
  have hlen : ∀ i, (front ++ [b]).length + i = front.length + (i + 1) := fun i => by
    rw [List.length_append, List.length_singleton]
    omega
  simp only [hlen, List.append_assoc, List.singleton_append] at hinside hends
  refine ⟨fun i hi => ?_, ?_⟩
  · cases i with
    | zero => exact hcut
    | succ i => exact hinside i (Nat.lt_of_succ_lt_succ hi)
  · rcases hends with ⟨rfl, hrest⟩ | ⟨hs, hcut'⟩
    · exact .inl ⟨rfl, hrest⟩
    · exact .inr ⟨congrArg (b :: ·) hs, hcut'⟩

/-- Read from a cut on, it is a piece of the whole text. -/
theorem ReadsPiece.piece (h : ReadsPiece a q front s p rest)
    (hstart : front.length = 0 ∨ Cut a q (front ++ s) (front.length - 1)) : Piece a q (front ++ s) p front.length := by
  obtain ⟨hinside, hends⟩ := h
  rcases hends with ⟨rfl, -⟩ | ⟨hs, hcut⟩
  · exact ⟨by rw [List.drop_left, List.take_length], hstart, .inl List.length_append.symm, hinside⟩
  · exact ⟨by rw [List.drop_left, hs, List.take_left], hstart, .inr hcut, hinside⟩

/-- Behind a cut, reading goes on outside quotes. -/
theorem Cut.even_front (hcut : Cut a q (front ++ (p ++ a :: rest)) (front.length + p.length)) (hne : a ≠ q) :
    (front ++ p ++ [a]).count q % 2 = 0 := by
  have htake : (front ++ (p ++ a :: rest)).take (front.length + p.length) = front ++ p := by
    rw [← List.append_assoc, ← List.length_append, List.take_left]
  have heven := hcut.2
  rw [htake] at heven
  rw [List.count_append, List.count_singleton, if_neg (by simpa using hne), Nat.add_zero]
  exact heven

end ReadsPiece

omit [DecidableEq α] in
theorem startOf_cons_succ (p : List α) (ps : List (List α)) (k : Nat) :
    startOf (p :: ps) (k + 1) = p.length + 1 + startOf ps k := by
  rw [startOf, List.take_succ_cons, List.map_cons, List.sum_cons, startOf]

omit [DecidableEq α] in
theorem intercalate_cons_of_ne_nil {p : List α} (h : ps ≠ []) :
    [a].intercalate (p :: ps) = p ++ a :: [a].intercalate ps := by
  obtain ⟨r, rs, rfl⟩ := List.exists_cons_of_ne_nil h
  rw [List.intercalate_cons_cons, List.append_assoc, List.singleton_append]

end Delimited
end Wolf

import Mathlib.Data.List.Dedup
import Mathlib.Data.List.Induction
import Mathlib.Data.List.Lex
import Scholia.Text.Table
/-!
# What tables hold

`Text.before` is a strict order by code points in which any two texts can be compared. A table that
texts have been put into, one after the other, has each key once and in ascending order
(`Ascending.putAll`), and under it the last text that was put there (`mem_putAll_iff`). So it is never
longer than what was put, and as long exactly if no key was put twice (`length_putAll_eq_iff`).
-/

namespace Scholia.Text

/-- **The order of texts is that of their code points**. -/
theorem before_iff_lt {s t : Text} :
    before s t = true ↔ s.map Char.toNat < t.map Char.toNat := by
  induction s generalizing t with
  | nil => cases t <;> simp [before]
  | cons c s ih =>
    cases t with
    | nil => simp [before]
    | cons d t =>
      rw [List.map_cons, List.map_cons, List.cons_lt_cons_iff, before]
      split
      · next h => simp [h, ih]
      · next h => simp [Char.toNat_inj, h]

theorem before_eq_false_iff {s t : Text} :
    before s t = false ↔ t.map Char.toNat ≤ s.map Char.toNat := by
  rw [← Bool.not_eq_true, before_iff_lt, not_lt]

theorem map_toNat_injective : Function.Injective (List.map Char.toNat) :=
  List.map_injective_iff.2 fun _ _ => Char.toNat_inj.1

theorem before_self (s : Text) : before s s = false :=
  before_eq_false_iff.2 le_rfl

/-- **Texts of which neither comes before the other are equal**. -/
theorem eq_of_not_before {s t : Text} (hst : before s t = false) (hts : before t s = false) :
    s = t :=
  map_toNat_injective (le_antisymm (before_eq_false_iff.1 hts) (before_eq_false_iff.1 hst))

theorem before_trans {s t u : Text} (hst : before s t = true) (htu : before t u = true) :
    before s u = true :=
  before_iff_lt.2 ((before_iff_lt.1 hst).trans (before_iff_lt.1 htu))

theorem before_asymm {s t : Text} (h : before s t = true) : before t s = false :=
  before_eq_false_iff.2 (before_iff_lt.1 h).le

/-- What does not come before a text does not come before one that does not come after it. -/
theorem not_before_trans {s t u : Text} (hts : before t s = false) (hut : before u t = false) :
    before u s = false :=
  before_eq_false_iff.2 ((before_eq_false_iff.1 hts).trans (before_eq_false_iff.1 hut))

end Scholia.Text

namespace Scholia.Text.Table

variable {t : Table} {key value : Text} {entries : List (Text × Text)}

/-- The keys ascend. -/
def Ascending (t : Table) : Prop :=
  t.Pairwise fun a b => before a.1 b.1 = true

theorem Ascending.nodup (h : t.Ascending) : (t.map (·.1)).Nodup := by
  refine List.pairwise_map.2 (h.imp fun {a b} hab he => ?_)
  rw [he, before_self] at hab
  cases hab

/-! ## One text more -/

theorem mem_keys_put {k : Text} :
    k ∈ (t.put key value).map (·.1) ↔ k = key ∨ k ∈ t.map (·.1) := by
  induction t with
  | nil => simp [put]
  | cons entry t ih =>
    obtain ⟨k', v⟩ := entry
    rw [put]
    split
    · next hk =>
      subst hk
      simp
    split
    · simp
    · rw [List.map_cons, List.mem_cons, ih, List.map_cons, List.mem_cons]
      exact or_left_comm

theorem Ascending.put (h : t.Ascending) : (t.put key value).Ascending := by
  induction t with
  | nil => exact List.pairwise_singleton _ _
  | cons entry t ih =>
    obtain ⟨k, v⟩ := entry
    obtain ⟨hfirst, hrest⟩ := List.pairwise_cons.1 h
    rw [Table.put]
    split
    · next hk =>
      subst hk
      exact List.pairwise_cons.2 ⟨hfirst, hrest⟩
    · next hne =>
      split
      · next hbefore =>
        refine List.pairwise_cons.2 ⟨List.forall_mem_cons.2 ⟨hbefore, fun e he => ?_⟩, h⟩
        exact before_trans hbefore (hfirst e he)
      · next hnot =>
        have hafter : before k key = true := by
          cases hb : before k key with
          | true => rfl
          | false => exact absurd (eq_of_not_before (eq_false_of_ne_true hnot) hb) hne
        refine List.pairwise_cons.2 ⟨fun e he => ?_, ih hrest⟩
        rcases mem_keys_put.1 (List.mem_map_of_mem he) with hk | hk
        · exact hk ▸ hafter
        · obtain ⟨e', he', hsame⟩ := List.mem_map.1 hk
          exact hsame ▸ hfirst e' he'

/-- In a table with each key once, what is under a key is told by its entries. -/
theorem Ascending.get?_eq_some_iff (h : t.Ascending) : t.get? key = some value ↔ (key, value) ∈ t := by
  unfold get?
  constructor
  · intro hget
    obtain ⟨⟨k, v⟩, hfind, rfl⟩ := Option.map_eq_some_iff.1 hget
    obtain rfl : k = key := by simpa using List.find?_some hfind
    exact List.mem_of_find?_eq_some hfind
  · intro hmem
    cases hfind : t.find? (·.1 == key) with
    | none => exact absurd (List.find?_eq_none.1 hfind _ hmem) (by simp)
    | some e =>
      have hkey : e.1 = key := by simpa using List.find?_some hfind
      have he : e = (key, value) :=
        List.inj_on_of_nodup_map h.nodup (List.mem_of_find?_eq_some hfind) hmem hkey
      rw [he]
      rfl

/-! ## Texts put one after the other -/

/-- All entries put, one after the other. -/
def putAll (t : Table) (entries : List (Text × Text)) : Table :=
  entries.foldl (fun t e => t.put e.1 e.2) t

theorem putAll_append (t : Table) (entries more : List (Text × Text)) :
    t.putAll (entries ++ more) = (t.putAll entries).putAll more :=
  List.foldl_append

theorem Ascending.putAll (h : t.Ascending) (entries : List (Text × Text)) :
    (t.putAll entries).Ascending := by
  induction entries generalizing t with
  | nil => exact h
  | cons e entries ih => exact ih h.put

theorem mem_keys_putAll {k : Text} :
    k ∈ (t.putAll entries).map (·.1) ↔ k ∈ entries.map (·.1) ∨ k ∈ t.map (·.1) := by
  induction entries generalizing t with
  | nil => simp [putAll]
  | cons e entries ih =>
    refine ih.trans ?_
    rw [mem_keys_put, List.map_cons, List.mem_cons, or_assoc, or_left_comm]

/-- **Under a key is the last text that was put there**. -/
theorem mem_putAll_iff : (key, value) ∈ putAll [] entries ↔
    ∃ front back, entries = front ++ (key, value) :: back ∧ ∀ e ∈ back, e.1 ≠ key := by
  have hascending : ∀ entries, (putAll [] entries).Ascending := Ascending.putAll List.Pairwise.nil
  rw [← (hascending entries).get?_eq_some_iff]
  induction entries using List.reverseRecOn with
  | nil =>
    refine iff_of_false (by simp [putAll, get?]) ?_
    rintro ⟨front, back, he, -⟩
    simp at he
  | append_singleton entries e ih =>
    rw [putAll_append]
    show ((putAll [] entries).put e.1 e.2).get? key = some value ↔ _
    rw [get?_put]
    split
    · next hkey =>
      constructor
      · rintro ⟨⟩
        exact ⟨entries, [], by rw [← hkey], fun _ he => absurd he List.not_mem_nil⟩
      · rintro ⟨front, back, he, hback⟩
        -- the last entry has the key, so nothing stands behind the one that is meant
        rcases List.eq_nil_or_concat back with rfl | ⟨back, e', rfl⟩
        · obtain ⟨-, rfl⟩ := List.append_inj' he rfl |>.imp_right List.singleton_inj.1
          rfl
        · rw [List.concat_eq_append, ← List.cons_append, ← List.append_assoc] at he
          obtain ⟨-, hlast⟩ := List.append_inj' he rfl
          have := hback e' (by simp)
          exact absurd (List.singleton_inj.1 hlast ▸ hkey) this
    · next hkey =>
      refine Iff.trans ih ⟨?_, ?_⟩
      · rintro ⟨front, back, rfl, hback⟩
        refine ⟨front, back ++ [e], by simp, ?_⟩
        exact List.forall_mem_append.2 ⟨hback, by simpa using hkey⟩
      · rintro ⟨front, back, he, hback⟩
        rcases List.eq_nil_or_concat back with rfl | ⟨back, e', rfl⟩
        · obtain ⟨-, hlast⟩ := List.append_inj' he rfl
          exact absurd (congrArg Prod.fst (List.singleton_inj.1 hlast)) hkey
        · rw [List.concat_eq_append, ← List.cons_append, ← List.append_assoc] at he
          obtain ⟨rfl, -⟩ := List.append_inj' he rfl
          exact ⟨front, back, rfl, fun e he => hback e (by simp [he])⟩

/-- The keys of the table are those that were put, without repetition. -/
theorem keys_putAll_perm (entries : List (Text × Text)) :
    ((putAll [] entries).map (·.1)).Perm (entries.map (·.1)).dedup := by
  have hascending : (putAll [] entries).Ascending := Ascending.putAll List.Pairwise.nil entries
  refine (List.perm_ext_iff_of_nodup hascending.nodup (List.nodup_dedup _)).2 fun k => ?_
  rw [mem_keys_putAll, List.mem_dedup]
  simp

theorem length_putAll (entries : List (Text × Text)) :
    (putAll [] entries).length = (entries.map (·.1)).dedup.length := by
  rw [← (keys_putAll_perm entries).length_eq, List.length_map]

theorem length_putAll_le (entries : List (Text × Text)) :
    (putAll [] entries).length ≤ entries.length := by
  have hlength : (entries.map (·.1)).length = entries.length := List.length_map _
  rw [length_putAll, ← hlength]
  exact (List.dedup_sublist _).length_le

/-- **As many keys as texts, exactly if no key is put twice**. -/
theorem length_putAll_eq_iff :
    (putAll [] entries).length = entries.length ↔ (entries.map (·.1)).Nodup := by
  have hlength : (entries.map (·.1)).length = entries.length := List.length_map _
  rw [length_putAll, ← hlength]
  constructor
  · intro hsame
    exact List.dedup_eq_self.1 ((List.dedup_sublist _).eq_of_length hsame)
  · intro hnodup
    rw [hnodup.dedup]

end Scholia.Text.Table

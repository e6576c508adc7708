import Mathlib.Data.List.Nodup

/-!
# Insertion-ordered dictionaries

A finite map as an association list without repeated keys, in the order in which the
keys were first assigned: `set` keeps the place of a key that is there already and puts
a new key last. Two dictionaries are the same map (`Same`) when every key has the same
value in both, whatever the order.

## What is proved

* `get?_set` — what an assignment does to every key.
* `mem_entries_iff` — the entries are exactly the pairs that `get?` finds.
* `keys_set_eraseDups` — the keys are in the order of their first assignments.
-/

namespace Cpm68k.Library

universe u v

variable {κ : Type u} {ν : Type v} [DecidableEq κ]

/-- The value of the first pair with key `k`. -/
def lookup (k : κ) : List (κ × ν) → Option ν
  | [] => none
  | e :: es => if e.1 = k then some e.2 else lookup k es

/-- `es[k] = v`: in place when `k` is there already, else at the end. -/
def assign (k : κ) (v : ν) : List (κ × ν) → List (κ × ν)
  | [] => [(k, v)]
  | e :: es => if e.1 = k then (k, v) :: es else e :: assign k v es

theorem lookup_eq_none_iff (k : κ) (es : List (κ × ν)) : lookup k es = none ↔ k ∉ es.map Prod.fst := by
  induction es with
  | nil => simp [lookup]
  | cons e es ih =>
    by_cases h : e.1 = k
    · simp [lookup, h]
    · simp [lookup, h, ih, Ne.symm h]

theorem mem_of_lookup {k : κ} {v : ν} {es : List (κ × ν)} (h : lookup k es = some v) : (k, v) ∈ es := by
  induction es with
  | nil => simp [lookup] at h
  | cons e es ih =>
    simp only [lookup] at h
    split_ifs at h with hk
    · simp only [Option.some.injEq] at h
      subst hk h
      exact List.mem_cons_self
    · exact List.mem_cons_of_mem _ (ih h)

theorem lookup_of_mem {k : κ} {v : ν} {es : List (κ × ν)} (hn : (es.map Prod.fst).Nodup) (h : (k, v) ∈ es) :
    lookup k es = some v := by
  induction es with
  | nil => simp at h
  | cons e es ih =>
    rw [List.map_cons, List.nodup_cons] at hn
    rcases List.mem_cons.mp h with rfl | h
    · simp [lookup]
    · have hne : e.1 ≠ k := fun he => hn.1 (he ▸ List.mem_map_of_mem (f := Prod.fst) h)
      rw [lookup, if_neg hne, ih hn.2 h]

theorem lookup_assign (k k' : κ) (v : ν) (es : List (κ × ν)) :
    lookup k' (assign k v es) = if k' = k then some v else lookup k' es := by
  induction es with
  | nil => by_cases h : k' = k <;> simp [assign, lookup, h, Ne.symm]
  | cons e es ih =>
    by_cases he : e.1 = k
    · by_cases h : k' = k
      · simp [assign, lookup, he, h]
      · simp [assign, lookup, he, h, Ne.symm h]
    · rw [assign, if_neg he, lookup, ih, lookup]
      by_cases h : k' = k
      · simp [h, he]
      · simp [h]

theorem keys_assign_subset {k k' : κ} {v : ν} {es : List (κ × ν)} (h : k' ∈ (assign k v es).map Prod.fst) :
    k' = k ∨ k' ∈ es.map Prod.fst := by
  by_contra hc
  rw [not_or] at hc
  have hnone : lookup k' (assign k v es) = none := by
    rw [lookup_assign, if_neg hc.1]
    exact (lookup_eq_none_iff k' es).mpr hc.2
  exact (lookup_eq_none_iff _ _).mp hnone h

theorem nodup_assign (k : κ) (v : ν) {es : List (κ × ν)} (h : (es.map Prod.fst).Nodup) :
    ((assign k v es).map Prod.fst).Nodup := by
  induction es with
  | nil => simp [assign]
  | cons e es ih =>
    rw [List.map_cons, List.nodup_cons] at h
    by_cases he : e.1 = k
    · subst he
      simpa [assign] using h
    · rw [assign, if_neg he, List.map_cons, List.nodup_cons]
      refine ⟨fun hm => ?_, ih h.2⟩
      rcases keys_assign_subset hm with rfl | hm
      · exact he rfl
      · exact h.1 hm

theorem keys_assign (k : κ) (v : ν) (es : List (κ × ν)) :
    (assign k v es).map Prod.fst = if k ∈ es.map Prod.fst then es.map Prod.fst else es.map Prod.fst ++ [k] := by
  induction es with
  | nil => rfl
  | cons e es ih =>
    by_cases he : e.1 = k
    · simp [assign, he]
    · rw [assign, if_neg he, List.map_cons, List.map_cons, ih]
      by_cases hk : k ∈ es.map Prod.fst
      · rw [if_pos hk, if_pos (List.mem_cons_of_mem _ hk)]
      · rw [if_neg hk, if_neg fun hmem => hk ((List.mem_cons.mp hmem).resolve_left (Ne.symm he)), List.cons_append]

/-- A dictionary: its entries in insertion order, no key twice. -/
structure Dict (κ : Type u) (ν : Type v) where
  /-- The entries, in insertion order. -/
  entries : List (κ × ν)
  /-- No key occurs twice. -/
  nodup : (entries.map Prod.fst).Nodup

namespace Dict

/-- `dict()`. -/
def empty : Dict κ ν := ⟨[], List.nodup_nil⟩

/-- `d[k]`, `none` for a `KeyError`. -/
def get? (d : Dict κ ν) (k : κ) : Option ν := lookup k d.entries

/-- `d[k] = v`. -/
def set (d : Dict κ ν) (k : κ) (v : ν) : Dict κ ν := ⟨assign k v d.entries, nodup_assign k v d.nodup⟩

/-- `list(d)`: the keys, in insertion order. -/
def keys (d : Dict κ ν) : List κ := d.entries.map Prod.fst

/-- `len(d)`. -/
def size (d : Dict κ ν) : ℕ := d.entries.length

omit [DecidableEq κ] in
theorem size_empty : (empty : Dict κ ν).size = 0 := rfl

@[simp] theorem get?_empty (k : κ) : (empty : Dict κ ν).get? k = none := rfl

theorem get?_set (d : Dict κ ν) (k k' : κ) (v : ν) : (d.set k v).get? k' = if k' = k then some v else d.get? k' :=
  lookup_assign k k' v d.entries

theorem mem_entries_iff (d : Dict κ ν) (k : κ) (v : ν) : (k, v) ∈ d.entries ↔ d.get? k = some v :=
  ⟨lookup_of_mem d.nodup, mem_of_lookup⟩

theorem size_eq_zero_iff (d : Dict κ ν) : d.size = 0 ↔ ∀ k, d.get? k = none := by
  unfold size
  rw [List.length_eq_zero_iff]
  constructor
  · intro h k
    simp [get?, h, lookup]
  · intro h
    cases hd : d.entries with
    | nil => rfl
    | cons e es => have := h e.1; simp [get?, hd, lookup] at this

/-- Equality of dictionaries: the same value, or none, for every key. -/
def Same (d e : Dict κ ν) : Prop := ∀ k, d.get? k = e.get? k

theorem Same.symm {d e : Dict κ ν} (h : Same d e) : Same e d := fun k => (h k).symm

theorem same_empty_iff (d : Dict κ ν) : Same d empty ↔ d.size = 0 := by
  rw [size_eq_zero_iff]
  rfl

/-! ### The order of the keys -/

theorem keys_set (d : Dict κ ν) (k : κ) (v : ν) : (d.set k v).keys = if k ∈ d.keys then d.keys else d.keys ++ [k] :=
  keys_assign k v d.entries

theorem eraseDups_append_singleton (done : List κ) (k : κ) :
    (done ++ [k]).eraseDups = if k ∈ done then done.eraseDups else done.eraseDups ++ [k] := by
  rw [List.eraseDups_append]
  by_cases hk : k ∈ done
  · simp [List.cons_removeAll, hk]
  · simp [List.cons_removeAll, hk, List.eraseDups_cons]

theorem eraseDups_of_nodup {keys : List κ} (h : keys.Nodup) : keys.eraseDups = keys := by
  induction keys with
  | nil => rfl
  | cons k keys ih =>
    rw [List.nodup_cons] at h
    have hfilter : (keys.filter fun b => !b == k) = keys := by
      refine List.filter_eq_self.mpr fun b hb => ?_
      have hne : b ≠ k := fun heq => h.1 (heq ▸ hb)
      simpa using hne
    rw [List.eraseDups_cons, hfilter, ih h.2]

/-- The keys are in the order of their first assignments. -/
theorem keys_set_eraseDups {d : Dict κ ν} {done : List κ} (h : d.keys = done.eraseDups) (k : κ) (v : ν) :
    (d.set k v).keys = (done ++ [k]).eraseDups := by
  rw [keys_set, eraseDups_append_singleton, h]
  exact if_congr List.mem_eraseDups rfl rfl

end Dict

end Cpm68k.Library

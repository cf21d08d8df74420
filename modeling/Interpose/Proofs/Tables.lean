import Mathlib.Data.List.Nodup
import Interpose.Table
/-!
# What tables hold

More on what tables answer: after the value of a key has been changed, after an entry has been put in and
taken out again, and for the keys as a list. Two tables that are written and erased at the same keys keep
the same keys, whatever their values are. Tables that answer alike hold the same entries.
-/

namespace Interpose

namespace Table

section Place

variable {κ α β : Type} {k : κ} {v : α} {w : β}

theorem keys_place_congr {less : κ → κ → Bool} {es : List (κ × α)} {es' : List (κ × β)}
    (h : es.map (·.1) = es'.map (·.1)) :
    (place less k v es).map (·.1) = (place less k w es').map (·.1) := by
  induction es generalizing es' with
  | nil =>
    obtain rfl := List.map_eq_nil_iff.1 h.symm
    rfl
  | cons e es ih =>
    obtain ⟨e', es', rfl, he, hes⟩ := List.map_eq_cons_iff.1 h.symm
    simp only [place, he]
    split
    · simp [he, hes]
    · simp [he, ih hes.symm]

theorem perm_place (less : κ → κ → Bool) (k : κ) (v : α) (es : List (κ × α)) :
    (place less k v es).Perm ((k, v) :: es) := by
  induction es with
  | nil => exact .refl _
  | cons e es ih =>
    unfold place
    split
    · exact .refl _
    · exact (ih.cons e).trans (.swap ..)

end Place

variable {κ α β : Type} [DecidableEq κ] {t : Table κ α} {u : Table κ β} {k x : κ} {v : α} {w : β}

theorem find?_modify (t : Table κ α) (k x : κ) (f : α → α) :
    (t.modify k f).find? x = if x = k then (t.find? x).map f else t.find? x := by
  obtain ⟨es⟩ := t
  simp only [find?, modify]
  induction es with
  | nil => simp
  | cons e rest ih =>
    by_cases he : e.1 = x
    · by_cases hk : e.1 = k
      · simp [hk, he ▸ hk]
      · simp [he, he ▸ hk]
    · have hsame : (if e.1 = k then (e.1, f e.2) else e).1 = e.1 := by split <;> rfl
      simp only [List.map_cons, List.find?_cons, hsame, he, decide_false]
      exact ih

theorem find?_modify_self (t : Table κ α) (k : κ) (f : α → α) :
    (t.modify k f).find? k = (t.find? k).map f := by
  rw [find?_modify, if_pos rfl]

theorem find?_modify_ne (t : Table κ α) (f : α → α) (h : x ≠ k) :
    (t.modify k f).find? x = t.find? x := by
  rw [find?_modify, if_neg h]

theorem modify_modify (t : Table κ α) (k : κ) (f g : α → α) :
    (t.modify k f).modify k g = t.modify k fun v => g (f v) := by
  simp only [modify, List.map_map, mk.injEq]
  refine List.map_congr_left fun e _ => ?_
  by_cases h : e.1 = k <;> simp [h]

theorem mem_keys : k ∈ t.keys ↔ ∃ v, t.find? k = some v := by
  simp only [keys, find?, List.mem_map, Option.map_eq_some_iff]
  constructor
  · rintro ⟨e, he, rfl⟩
    cases hfound : t.entries.find? (·.1 = e.1) with
    | none => exact absurd (List.find?_eq_none.1 hfound e he) (by simp)
    | some e' => exact ⟨_, e', rfl, rfl⟩
  · rintro ⟨v, e, he, -⟩
    exact ⟨e, List.mem_of_find?_eq_some he, by simpa using List.find?_some he⟩

theorem not_mem_keys : k ∉ t.keys ↔ t.find? k = none := by
  rw [mem_keys, ← Option.isSome_iff_exists, Option.not_isSome_iff_eq_none]

/-! ## The keys as a list -/

theorem keys_erase : (t.erase k).keys = t.keys.filter (· ≠ k) := by
  rw [keys, keys, erase, List.filter_map]
  rfl

theorem keys_insert_congr [LT κ] [DecidableLT κ] (h : t.keys = u.keys) :
    (t.insert k v).keys = (u.insert k w).keys := by
  refine keys_place_congr ?_
  change (t.erase k).keys = (u.erase k).keys
  rw [keys_erase, keys_erase, h]

theorem nodup_keys_erase (h : t.keys.Nodup) : (t.erase k).keys.Nodup := by
  rw [keys_erase]
  exact h.filter _

theorem nodup_keys_insertBy {less : κ → κ → Bool} (h : t.keys.Nodup) :
    (t.insertBy less k v).keys.Nodup := by
  have hkeys : (t.insertBy less k v).keys.Perm (k :: (t.erase k).keys) :=
    (perm_place _ k v (t.erase k).entries).map Prod.fst
  refine hkeys.nodup_iff.2 (List.nodup_cons.2 ⟨?_, nodup_keys_erase h⟩)
  rw [keys_erase]
  simp

theorem nodup_keys_insert [LT κ] [DecidableLT κ] (h : t.keys.Nodup) : (t.insert k v).keys.Nodup :=
  nodup_keys_insertBy h

/-- In a table without repeated keys, the entries are what the keys are looked up as. -/
theorem mem_entries (h : t.keys.Nodup) : (k, v) ∈ t.entries ↔ t.find? k = some v := by
  constructor
  · intro hmem
    obtain ⟨v', hv'⟩ := mem_keys.1 (List.mem_map_of_mem hmem : (k, v).1 ∈ t.keys)
    obtain ⟨e, he, rfl⟩ := Option.map_eq_some_iff.1 hv'
    have hkey : e.1 = k := by simpa using List.find?_some he
    rw [List.inj_on_of_nodup_map h (List.mem_of_find?_eq_some he) hmem hkey] at hv'
    exact hv'
  · intro hfound
    obtain ⟨e, he, rfl⟩ := Option.map_eq_some_iff.1 hfound
    have hkey : e.1 = k := by simpa using List.find?_some he
    rw [← hkey]
    exact List.mem_of_find?_eq_some he

theorem perm_entries {u : Table κ α} (ht : t.keys.Nodup) (hu : u.keys.Nodup)
    (h : ∀ k, t.find? k = u.find? k) : t.entries.Perm u.entries := by
  refine (List.perm_ext_iff_of_nodup ht.of_map hu.of_map).2 fun e => ?_
  rw [mem_entries ht, mem_entries hu, h]

/-! ## Putting in and taking out -/

theorem filter_place (less : κ → κ → Bool) (es : List (κ × α)) :
    (place less k v es).filter (·.1 ≠ k) = es.filter (·.1 ≠ k) := by
  induction es with
  | nil => simp [place]
  | cons e es ih =>
    unfold place
    split
    · simp
    · rw [List.filter_cons, List.filter_cons, ih]

theorem erase_of_find?_eq_none (h : t.find? k = none) : t.erase k = t := by
  obtain ⟨es⟩ := t
  rw [erase, mk.injEq, List.filter_eq_self]
  intro e he
  have habsent := not_mem_keys.2 h
  have hne : e.1 ≠ k := fun heq => habsent (heq ▸ List.mem_map_of_mem he)
  simpa using hne

/-- An entry that was put in and taken out again leaves nothing. -/
theorem erase_insert [LT κ] [DecidableLT κ] (h : t.find? k = none) : (t.insert k v).erase k = t := by
  have hfilter := filter_place (k := k) (v := v) (fun a b => decide (a < b)) (t.erase k).entries
  rw [erase_of_find?_eq_none h] at hfilter
  calc (t.insert k v).erase k
      = ⟨(place (fun a b => decide (a < b)) k v t.entries).filter (·.1 ≠ k)⟩ := by
        rw [insert, insertBy, erase_of_find?_eq_none h, erase]
    _ = t.erase k := by rw [hfilter, erase]
    _ = t := erase_of_find?_eq_none h

end Table

end Interpose

/-!
# Tables

A table holds at most one value per key and lists its entries by ascending key, or in the order in which
they were written last. It is a plain list, so what an operation does is said by what `find?` answers
afterwards.

Results:
* `find?_insert`, `find?_erase`: writing or erasing one key changes the answer for that key alone.
-/

namespace Interpose

/-- Values by key. -/
structure Table (κ α : Type) where
  entries : List (κ × α) := []

namespace Table

variable {κ α : Type} [DecidableEq κ]

/-- The table without entries. -/
def empty : Table κ α := {}

/-- The value of a key. -/
def find? (t : Table κ α) (k : κ) : Option α :=
  (t.entries.find? (·.1 = k)).map (·.2)

/-- Whether a key has a value. -/
def contains (t : Table κ α) (k : κ) : Bool :=
  (t.find? k).isSome

/-- The keys in the order of the entries. -/
def keys (t : Table κ α) : List κ :=
  t.entries.map (·.1)

/-- The values in the order of the entries. -/
def values (t : Table κ α) : List α :=
  t.entries.map (·.2)

/-- The number of entries. -/
def size (t : Table κ α) : Nat :=
  t.entries.length

/-- Entries without those of a key. -/
def erase (t : Table κ α) (k : κ) : Table κ α :=
  ⟨t.entries.filter (·.1 ≠ k)⟩

/-- Puts an entry in front of the first one with a greater key. -/
def place (less : κ → κ → Bool) (k : κ) (v : α) : List (κ × α) → List (κ × α)
  | [] => [(k, v)]
  | e :: rest => if less k e.1 then (k, v) :: e :: rest else e :: place less k v rest

/-- The table with a value for a key; an earlier value of the key is gone. The order of the keys is
given. -/
def insertBy (less : κ → κ → Bool) (t : Table κ α) (k : κ) (v : α) : Table κ α :=
  ⟨place less k v (t.erase k).entries⟩

/-- The table with a value for a key, in the order of the keys' type. -/
def insert [LT κ] [DecidableLT κ] (t : Table κ α) (k : κ) (v : α) : Table κ α :=
  t.insertBy (fun a b => decide (a < b)) k v

/-- The table with a value for a key, behind all others. -/
def put (t : Table κ α) (k : κ) (v : α) : Table κ α :=
  t.insertBy (fun _ _ => false) k v

/-- The table with the value of a key changed, if there is one. -/
def modify (t : Table κ α) (k : κ) (f : α → α) : Table κ α :=
  ⟨t.entries.map fun e => if e.1 = k then (e.1, f e.2) else e⟩

theorem find?_erase (t : Table κ α) (k x : κ) :
    (t.erase k).find? x = if x = k then none else t.find? x := by
  obtain ⟨es⟩ := t
  simp only [find?, erase]
  induction es with
  | nil => simp
  | cons e rest ih =>
    by_cases hk : e.1 = k
    · by_cases hx : e.1 = x
      · subst hk; subst hx; simp_all
      · simp_all
    · by_cases hx : e.1 = x
      · subst hx; simp [hk]
      · simp_all

theorem find?_place (less : κ → κ → Bool) (k x : κ) (v : α) (es : List (κ × α))
    (h : ∀ e ∈ es, e.1 ≠ k) :
    ((place less k v es).find? (·.1 = x)).map (·.2) =
      if x = k then some v else (es.find? (·.1 = x)).map (·.2) := by
  induction es with
  | nil => by_cases hx : x = k <;> simp [place, hx, eq_comm]
  | cons e rest ih =>
    have hk : e.1 ≠ k := h e (List.mem_cons_self ..)
    have hr := ih fun e he => h e (List.mem_cons_of_mem _ he)
    simp only [place]
    split
    · by_cases hx : x = k
      · simp [hx]
      · simp [hx, eq_comm]
    · by_cases he : e.1 = x
      · have : x ≠ k := fun hx => hk (he.trans hx)
        simp [he, this]
      · simp_all

theorem find?_insertBy (less : κ → κ → Bool) (t : Table κ α) (k x : κ) (v : α) :
    (t.insertBy less k v).find? x = if x = k then some v else t.find? x := by
  have absent : ∀ e ∈ (t.erase k).entries, e.1 ≠ k := by simp [erase]
  have := find?_place less k x v (t.erase k).entries absent
  have erased := find?_erase t k x
  simp only [find?, insertBy] at this erased ⊢
  rw [this, erased]
  by_cases hx : x = k <;> simp [hx]

theorem find?_insert [LT κ] [DecidableLT κ] (t : Table κ α) (k x : κ) (v : α) :
    (t.insert k v).find? x = if x = k then some v else t.find? x :=
  find?_insertBy _ t k x v

theorem find?_put (t : Table κ α) (k x : κ) (v : α) :
    (t.put k v).find? x = if x = k then some v else t.find? x :=
  find?_insertBy _ t k x v

end Table

end Interpose

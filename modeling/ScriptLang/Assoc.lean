/-!
# Finite maps as lists of pairs

* `Assoc.get?` — the value of the first pair with a key;
* `Assoc.set` — replaces that value in place, or puts a new pair at the end, so the keys stand in
  the order of their first writing;
* `get?_set` — a write is seen at its own key and nowhere else;
* `Assoc.setAll` — many writes one after the other.
-/

namespace ScriptLang

/-- A finite map from `κ` to `α`, oldest key first. -/
abbrev Assoc (κ α : Type) : Type := List (κ × α)

namespace Assoc

variable {κ α : Type} [DecidableEq κ]

/-- The value at a key. -/
def get? : Assoc κ α → κ → Option α
  | [], _ => none
  | (k, a) :: rest, x => if k = x then some a else get? rest x

/-- The map with the value at a key replaced or added. -/
def set : Assoc κ α → κ → α → Assoc κ α
  | [], x, a => [(x, a)]
  | (k, b) :: rest, x, a => if k = x then (k, a) :: rest else (k, b) :: set rest x a

/-- The keys, oldest first. -/
def keys (m : Assoc κ α) : List κ := m.map Prod.fst

/-- The map after writing pairs one by one: of two pairs with one key the later wins. -/
def setAll (m : Assoc κ α) (pairs : List (κ × α)) : Assoc κ α :=
  pairs.foldl (fun m p => Assoc.set m p.1 p.2) m

@[simp] theorem get?_nil (x : κ) : get? ([] : Assoc κ α) x = none := rfl

theorem get?_set (m : Assoc κ α) (x y : κ) (a : α) :
    get? (set m x a) y = if x = y then some a else get? m y := by
  induction m with
  | nil => simp [set, get?]
  | cons p rest ih =>
    obtain ⟨k, b⟩ := p
    by_cases hk : k = x
    · subst hk
      by_cases hy : k = y <;> simp [set, get?, hy]
    · by_cases hy : k = y
      · subst hy
        have : x ≠ k := fun h => hk h.symm
        simp [set, get?, hk, this]
      · simp [set, get?, hk, hy, ih]

@[simp] theorem get?_set_self (m : Assoc κ α) (x : κ) (a : α) : get? (set m x a) x = some a := by
  simp [get?_set]

theorem get?_set_of_ne (m : Assoc κ α) {x y : κ} (h : x ≠ y) (a : α) :
    get? (set m x a) y = get? m y := by
  simp [get?_set, h]

/-- Of two writes to one key only the later one is seen, also in the order of the keys. -/
@[simp] theorem set_set (m : Assoc κ α) (x : κ) (a b : α) : set (set m x a) x b = set m x b := by
  induction m with
  | nil => simp [set]
  | cons p rest ih =>
    obtain ⟨k, c⟩ := p
    by_cases hk : k = x <;> simp [set, hk, ih]

theorem get?_isSome_iff (m : Assoc κ α) (x : κ) : (get? m x).isSome ↔ x ∈ keys m := by
  induction m with
  | nil => simp [keys]
  | cons p rest ih =>
    obtain ⟨k, b⟩ := p
    by_cases hk : k = x
    · simp [get?, keys, hk]
    · have hx : x ≠ k := fun h => hk h.symm
      simpa [get?, keys, hk, hx] using ih

theorem mem_of_get? {m : Assoc κ α} {x : κ} {a : α} (h : get? m x = some a) : (x, a) ∈ m := by
  induction m with
  | nil => cases h
  | cons p rest ih =>
    obtain ⟨k, b⟩ := p
    unfold get? at h
    split at h
    · next hk =>
      cases h
      exact hk ▸ List.mem_cons_self
    · exact List.mem_cons_of_mem _ (ih h)

/-! ## writing pairs one by one -/

@[simp] theorem setAll_nil (m : Assoc κ α) : setAll m [] = m := rfl

theorem setAll_cons (m : Assoc κ α) (p : κ × α) (pairs : List (κ × α)) :
    setAll m (p :: pairs) = setAll (set m p.1 p.2) pairs := rfl

/-- A key that is not written keeps its value. -/
theorem get?_setAll_of_not_mem {m : Assoc κ α} {pairs : List (κ × α)} {x : κ} (h : x ∉ pairs.map Prod.fst) :
    get? (setAll m pairs) x = get? m x := by
  induction pairs generalizing m with
  | nil => rfl
  | cons p pairs ih =>
    rw [List.map_cons, List.mem_cons, not_or] at h
    rw [setAll_cons, ih h.2, get?_set_of_ne _ fun he => h.1 he.symm]

/-- A value was there before or was written. -/
theorem mem_or_get?_of_get?_setAll {m : Assoc κ α} {pairs : List (κ × α)} {x : κ} {a : α}
    (h : get? (setAll m pairs) x = some a) : (x, a) ∈ pairs ∨ get? m x = some a := by
  induction pairs generalizing m with
  | nil => exact .inr h
  | cons p pairs ih =>
    rcases ih h with h | h
    · exact .inl (List.mem_cons_of_mem _ h)
    · rw [get?_set] at h
      split at h
      · next he =>
        obtain rfl := Option.some.inj h
        exact .inl (he ▸ List.mem_cons_self)
      · exact .inr h

theorem isSome_get?_setAll {m : Assoc κ α} {pairs : List (κ × α)} {x : κ} :
    (get? (setAll m pairs) x).isSome ↔ (get? m x).isSome ∨ x ∈ pairs.map Prod.fst := by
  induction pairs generalizing m with
  | nil => simp
  | cons p pairs ih =>
    rw [setAll_cons, ih, get?_set, List.map_cons, List.mem_cons]
    by_cases he : p.1 = x
    · simp [he]
    · have hx : ¬ x = p.1 := fun h => he h.symm
      simp [he, hx]

theorem mem_of_mem_set {m : Assoc κ α} {x : κ} {a : α} {p : κ × α} (h : p ∈ set m x a) : p = (x, a) ∨ p ∈ m := by
  induction m with
  | nil => exact .inl (List.mem_singleton.1 h)
  | cons q rest ih =>
    obtain ⟨k, b⟩ := q
    unfold set at h
    split at h
    · next hk =>
      rcases List.mem_cons.1 h with rfl | h
      · exact .inl (by rw [hk])
      · exact .inr (List.mem_cons_of_mem _ h)
    · rcases List.mem_cons.1 h with rfl | h
      · exact .inr List.mem_cons_self
      · exact (ih h).imp_right (List.mem_cons_of_mem _)

theorem mem_of_mem_setAll {m : Assoc κ α} {pairs : List (κ × α)} {p : κ × α} (h : p ∈ setAll m pairs) :
    p ∈ pairs ∨ p ∈ m := by
  induction pairs generalizing m with
  | nil => exact .inr h
  | cons q pairs ih =>
    rcases ih h with h | h
    · exact .inl (List.mem_cons_of_mem _ h)
    · rcases mem_of_mem_set h with rfl | h
      · exact .inl List.mem_cons_self
      · exact .inr h

/-- A key with one value among the pairs has that value when they are written. -/
theorem get?_setAll_of_mem {m : Assoc κ α} {pairs : List (κ × α)} {x : κ} {a : α} (h : (x, a) ∈ pairs)
    (hu : ∀ b, (x, b) ∈ pairs → b = a) : get? (setAll m pairs) x = some a := by
  induction pairs generalizing m with
  | nil => cases h
  | cons q pairs ih =>
    by_cases hx : x ∈ pairs.map Prod.fst
    · obtain ⟨⟨x', c⟩, hc, rfl⟩ := List.mem_map.1 hx
      obtain rfl := hu c (List.mem_cons_of_mem _ hc)
      exact ih hc fun b hb => hu b (List.mem_cons_of_mem _ hb)
    · rw [setAll_cons, get?_setAll_of_not_mem hx]
      rcases List.mem_cons.1 h with rfl | h
      · exact get?_set_self m x a
      · exact absurd (List.mem_map_of_mem h) hx

/-! ## tables of tables -/

theorem setAll_append (m : Assoc κ α) (first second : List (κ × α)) :
    setAll m (first ++ second) = setAll (setAll m first) second :=
  List.foldl_append

/-- What is written last is found first. -/
theorem get?_setAll (m : Assoc κ α) (pairs : List (κ × α)) (x : κ) :
    get? (setAll m pairs) x = (get? (setAll [] pairs) x).or (get? m x) := by
  induction pairs generalizing m with
  | nil => rfl
  | cons p pairs ih =>
    rw [setAll_cons, setAll_cons, ih, ih (set [] p.1 p.2), Option.or_assoc, get?_set, get?_set]
    split <;> rfl

theorem keys_set (m : Assoc κ α) (x : κ) (a : α) : keys (set m x a) = if x ∈ keys m then keys m else keys m ++ [x] := by
  induction m with
  | nil => rfl
  | cons p rest ih =>
    obtain ⟨k, b⟩ := p
    by_cases hk : k = x
    · simp [set, keys, hk]
    · have hx : x ≠ k := fun h => hk h.symm
      simp only [keys] at ih
      by_cases hmem : x ∈ rest.map Prod.fst <;> simp [set, keys, hk, hx, ih, hmem]

theorem nodup_keys_set {m : Assoc κ α} (h : (keys m).Nodup) (x : κ) (a : α) : (keys (set m x a)).Nodup := by
  rw [keys_set]
  split
  · exact h
  · next hx =>
    refine List.nodup_append.2 ⟨h, List.pairwise_singleton _ x, fun k hk y hy => ?_⟩
    obtain rfl := List.mem_singleton.1 hy
    exact fun he => hx (he ▸ hk)

/-- A map that was written pair by pair has each key once. -/
theorem nodup_keys_setAll (pairs : List (κ × α)) : (keys (setAll [] pairs)).Nodup := by
  suffices h : ∀ m : Assoc κ α, (keys m).Nodup → (keys (setAll m pairs)).Nodup from h [] List.nodup_nil
  induction pairs with
  | nil => exact fun _ hm => hm
  | cons p pairs ih => exact fun m hm => ih _ (nodup_keys_set hm p.1 p.2)

theorem set_of_not_mem {m : Assoc κ α} {x : κ} (h : x ∉ keys m) (a : α) : set m x a = m ++ [(x, a)] := by
  induction m with
  | nil => rfl
  | cons p rest ih =>
    obtain ⟨k, b⟩ := p
    obtain ⟨hne, hrest⟩ := not_or.1 (fun hmem => h (List.mem_cons.2 hmem))
    simp [set, Ne.symm hne, ih hrest]

/-- Pairs with keys of their own are put behind the others as they are. -/
theorem setAll_of_nodup {m pairs : Assoc κ α} (h : (keys (m ++ pairs)).Nodup) : setAll m pairs = m ++ pairs := by
  induction pairs generalizing m with
  | nil => simp
  | cons p pairs ih =>
    have hnodup : (keys ((m ++ [p]) ++ pairs)).Nodup := by simpa using h
    have hp : p.1 ∉ keys m := fun hmem => by
      have hdisjoint := (List.nodup_append.1 (show (keys m ++ keys (p :: pairs)).Nodup by simpa [keys] using h)).2.2
      exact hdisjoint p.1 hmem p.1 (List.mem_cons_self ..) rfl
    rw [setAll_cons, set_of_not_mem hp, ih hnodup]
    simp

theorem get?_setAll_of_nodup (m : Assoc κ α) {pairs : Assoc κ α} (h : (keys pairs).Nodup) (x : κ) :
    get? (setAll m pairs) x = (get? pairs x).or (get? m x) := by
  induction pairs generalizing m with
  | nil => rfl
  | cons p pairs ih =>
    obtain ⟨k, a⟩ := p
    obtain ⟨hk, hpairs⟩ := List.nodup_cons.1 h
    rw [setAll_cons, ih _ hpairs, get?_set]
    by_cases hx : k = x
    · subst hx
      have hnone : get? pairs k = none := by
        rw [← Option.not_isSome_iff_eq_none, get?_isSome_iff]
        exact hk
      simp [get?, hnone]
    · simp [get?, hx]

/-- A map is written as the pairs that it was made of. -/
theorem get?_setAll_setAll (m : Assoc κ α) (pairs : List (κ × α)) (x : κ) :
    get? (setAll m (setAll [] pairs)) x = get? (setAll m pairs) x := by
  rw [get?_setAll_of_nodup m (nodup_keys_setAll pairs), get?_setAll m pairs]

/-- One table of all pairs is as good as two tables, one written after the other. -/
theorem get?_setAll_append (m : Assoc κ α) (first second : List (κ × α)) (x : κ) :
    get? (setAll m (setAll [] (first ++ second))) x = get? (setAll (setAll m (setAll [] first)) (setAll [] second)) x := by
  rw [get?_setAll_setAll, get?_setAll_setAll, setAll_append, get?_setAll, get?_setAll (setAll m (setAll [] first)),
    get?_setAll_setAll]

end Assoc

end ScriptLang

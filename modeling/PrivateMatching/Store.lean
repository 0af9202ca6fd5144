/-!
# Named values

A store keeps values by name. What is put under a name hides what was there.
-/

namespace PrivateMatching

/-- Values by name, the latest first. -/
structure Store (α : Type) where
  /-- The names with their values. -/
  entries : List (String × α)

namespace Store

/-- The store without values. -/
def empty : Store α := ⟨[]⟩

/-- The value under a name. -/
def get? (store : Store α) (name : String) : Option α := store.entries.lookup name

/-- The store with a value put under a name. -/
def put (store : Store α) (name : String) (value : α) : Store α := ⟨(name, value) :: store.entries⟩

theorem get?_put (store : Store α) (name other : String) (value : α) :
    (store.put name value).get? other = if other = name then some value else store.get? other := by
  rw [get?, get?, put, List.lookup_cons]
  by_cases h : other = name
  · rw [if_pos h, beq_iff_eq.2 h]
  · rw [if_neg h, beq_eq_false_iff_ne.2 h]

theorem get?_put_self (store : Store α) (name : String) (value : α) :
    (store.put name value).get? name = some value := by
  rw [get?_put, if_pos rfl]

end Store

end PrivateMatching

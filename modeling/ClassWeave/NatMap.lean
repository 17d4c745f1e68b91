/-!
Finite maps from natural numbers. A map is a binary tree in which the digits of a key name the path
to its value, so finding and setting take as many steps as the key has digits.
-/

namespace ClassWeave

/-- Key zero is at the root; below it are the odd keys on one side and the other even keys on the
other, each halved. -/
inductive NatMap (α : Type) where
  | empty
  | node (value : Option α) (odd even : NatMap α)

namespace NatMap

variable {α : Type}

def value? : NatMap α → Option α
  | .empty => none
  | .node value _ _ => value

def odd : NatMap α → NatMap α
  | .empty => .empty
  | .node _ odd _ => odd

def even : NatMap α → NatMap α
  | .empty => .empty
  | .node _ _ even => even

def get? : NatMap α → Nat → Option α
  | .empty, _ => none
  | .node value odd even, key =>
    if key = 0 then value
    else if key % 2 = 1 then odd.get? (key / 2)
    else even.get? (key / 2 - 1)

def set (map : NatMap α) (key : Nat) (value : α) : NatMap α :=
  if key = 0 then .node (some value) map.odd map.even
  else if key % 2 = 1 then .node map.value? (set map.odd (key / 2) value) map.even
  else .node map.value? map.odd (set map.even (key / 2 - 1) value)
termination_by key
decreasing_by all_goals omega

@[simp] theorem get?_empty (key : Nat) : (empty : NatMap α).get? key = none := rfl

theorem get?_eq (map : NatMap α) (key : Nat) :
    map.get? key =
      if key = 0 then map.value?
      else if key % 2 = 1 then map.odd.get? (key / 2)
      else map.even.get? (key / 2 - 1) := by
  cases map with
  | empty => simp [value?, odd, even, get?]
  | node => rfl

theorem get?_set (map : NatMap α) (key : Nat) (value : α) (other : Nat) :
    (map.set key value).get? other = if other = key then some value else map.get? other := by
  induction key using Nat.strongRecOn generalizing map other with
  | _ key ih =>
    rw [set]
    split
    · subst key
      rw [get?_eq map other]
      by_cases h : other = 0 <;> simp [get?, h]
    · split
      · rw [get?_eq map other, get?]
        by_cases h0 : other = 0
        · subst h0; simp; intro h; omega
        · by_cases h1 : other % 2 = 1
          · simp only [h0, h1, if_true, if_false]
            rw [ih _ (by omega)]
            by_cases h : other = key
            · simp [h]
            · rw [if_neg h, if_neg (by omega)]
          · simp only [h0, h1, if_false]
            rw [if_neg (by omega)]
      · rw [get?_eq map other, get?]
        by_cases h0 : other = 0
        · subst h0; simp; intro h; omega
        · by_cases h1 : other % 2 = 1
          · simp only [h0, h1, if_true, if_false]
            rw [if_neg (by omega)]
          · simp only [h0, h1, if_false]
            rw [ih _ (by omega)]
            by_cases h : other = key
            · simp [h]
            · rw [if_neg h, if_neg (by omega)]

end NatMap

end ClassWeave

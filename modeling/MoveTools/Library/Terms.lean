import MoveTools.Library.Readable

namespace MoveTools

variable {γ : Type}

/-- A head that is applied to arguments. -/
inductive Term (γ : Type) where
  | apply (head : List γ) (args : List (Term γ))

/-- The marks around and between arguments, which no head contains. -/
structure Marks (letter : γ → Prop) where
  left : γ
  comma : γ
  space : List γ
  right : γ
  left_mark : ¬letter left
  comma_mark : ¬letter comma
  right_mark : ¬letter right
  comma_ne : comma ≠ left ∧ comma ≠ right
  right_ne : right ≠ left

namespace Term

/-- All heads are made of letters. -/
inductive Valid (letter : γ → Prop) : Term γ → Prop where
  | apply {head : List γ} {args : List (Term γ)} (hhead : ∀ c ∈ head, letter c)
      (hargs : ∀ t ∈ args, Valid letter t) : Valid letter (.apply head args)

variable {letter : γ → Prop} (m : Marks letter)

mutual

def print : Term γ → List γ
  | .apply head args => head ++ printArgs args

def printArgs : List (Term γ) → List γ
  | [] => []
  | t :: ts => m.left :: (t.print ++ printMore ts ++ [m.right])

def printMore : List (Term γ) → List γ
  | [] => []
  | t :: ts => m.comma :: m.space ++ t.print ++ printMore ts

end

def Ends : List γ → Prop := Readable.Stops fun c => letter c ∨ c = m.left

variable {m}

end Term
end MoveTools

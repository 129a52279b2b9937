import MoveTools.Library.Readable
import MoveTools.Library.Text

namespace MoveTools
open Readable

/-- What an identifier is made of. -/
def IsLetter (c : Char) : Prop := c.isAlphanum ∨ c = '_'

instance (c : Char) : Decidable (IsLetter c) := inferInstanceAs (Decidable (_ ∨ _))

/-- The letters of the word are tried, and not all characters. -/
instance (priority := 2000) (p : Char → Prop) [DecidablePred p] (w : Text) :
    Decidable (∀ c ∈ w, p c) := List.decidableBAll p w

def IsName (w : Text) : Prop := w ≠ [] ∧ ∀ c ∈ w, IsLetter c

instance (w : Text) : Decidable (IsName w) := inferInstanceAs (Decidable (_ ∧ _))

theorem name_readable : Readable id IsName (Stops IsLetter) :=
  word.mono (fun _ h => h.2) fun _ h => h

theorem name_ne_nil {w r : Text} (h : IsName w) : ∃ c rest, IsLetter c ∧ w ++ r = c :: rest := by
  obtain ⟨hne, hw⟩ := h
  cases w with
  | nil => exact absurd rfl hne
  | cons c w => exact ⟨c, w ++ r, hw c List.mem_cons_self, rfl⟩

end MoveTools

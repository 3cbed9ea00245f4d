import Mathlib.Data.List.Basic

/- Line editing as a fold over keys: characters collect in a line, some keys take characters back, and a
   line that is finished joins those before it. -/
namespace Lines

variable {α : Type}

inductive Key (α : Type) where
  | keep (a : α)
  | finish (a : α)
  | erase
  | kill
  | skip

/-- The lines that are finished, and the one that is being typed. -/
structure Page (α : Type) where
  done : List α
  line : List α

def Page.empty : Page α := ⟨[], []⟩

def press (p : Page α) : Key α → Page α
  | .keep a => ⟨p.done, p.line ++ [a]⟩
  | .finish a => ⟨p.done ++ p.line ++ [a], []⟩
  | .erase => ⟨p.done, p.line.dropLast⟩
  | .kill => ⟨p.done, []⟩
  | .skip => p

def typeAll (p : Page α) (keys : List (Key α)) : Page α := keys.foldl press p

theorem typeAll_append (p : Page α) (keys keys' : List (Key α)) :
    typeAll p (keys ++ keys') = typeAll (typeAll p keys) keys' := List.foldl_append

def added (line : List α) : Key α → List α
  | .finish a => line ++ [a]
  | _ => []

theorem press_done (p : Page α) (k : Key α) : (press p k).done = p.done ++ added p.line k := by
  cases k <;> simp [press, added]

end Lines

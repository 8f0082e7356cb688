import ExactNeighbors.Storage.Store

set_option autoImplicit false

/-! # Changes in place

A store in memory is changed in place, by one write after another, and an error between two writes
would leave a store that was written to in part. Here the two ways of writing a point are spelled out
in their order (`Store.Change`). In either every error comes before the first write, so what is left
is the store that is calculated elsewhere, or the store as it was (`Store.appendInPlace_on`,
`Store.overwriteInPlace_on`). -/

namespace ExactNeighbors

namespace Store

/-! ## Changes -/

/-- A change made to a store write by write. An error ends it and takes nothing back. -/
abbrev Change (α : Type) := ExceptT Error (StateM Store) α

namespace Change

variable {α β : Type}

/-- What a change answers, and what it leaves of the store. -/
def on (change : Change α) (s : Store) : Except Error α × Store := change.run.run s

theorem on_bind (change : Change α) (next : α → Change β) (s : Store) :
    (change >>= next).on s =
      match change.on s with
      | (.ok a, s') => (next a).on s'
      | (.error e, s') => (.error e, s') := by
  show ExceptT.bindCont next (change.on s).1 (change.on s).2 = _
  obtain ⟨answer, s'⟩ := change.on s
  cases answer <;> rfl

theorem on_get (s : Store) : on get s = (.ok s, s) := rfl

theorem on_liftM (x : Except Error α) (s : Store) : on (liftM x) s = (x, s) := rfl

end Change

open Change

/-! ## The two ways of writing a point -/

/-- Adds a labelled point at the end. -/
def appendInPlace (point : Point) (label : Label) : Change Nat := do
  point.checkDimension (← get).dimension
  if (← get).needsBlock then
    modify fun s => { s with blocks := s.blocks.push (.empty s.dimension s.blockSize) }
  modify fun s =>
    { s with blocks := s.blocks.modify (s.blocks.size - 1) (·.push label point) }
  let id := (← get).count
  modify fun s => { s with count := s.count + 1 }
  modify fun s => { s with ids := addId s.ids label id }
  pure id

/-- Replaces the point of an id. -/
def overwriteInPlace (id : Nat) (point : Point) : Change Unit := do
  point.checkDimension (← get).dimension
  let s ← get
  match s.blocks[id / s.blockSize]?.bind (·.overwrite? (id % s.blockSize) point) with
  | some block =>
    modify fun s => { s with blocks := s.blocks.setIfInBounds (id / s.blockSize) block }
  | none => throw (.invalidArgument (.unusedId id))

theorem appendInPlace_on (point : Point) (label : Label) (s : Store) :
    (appendInPlace point label).on s =
      match s.append point label with
      | .ok (id, s') => (.ok id, s')
      | .error e => (.error e, s) := by
  rw [append, appendInPlace]
  cases hcheck : point.checkDimension s.dimension with
  | error e =>
      simp only [on_bind, on_get, on_liftM, hcheck]
      rfl
  | ok _ =>
      simp only [on_bind, on_get, on_liftM, hcheck]
      show _ = (Except.ok s.count, s.push point label)
      -- the writes are those of a push, with or without a new block
      rw [push]
      split <;> rfl

theorem overwriteInPlace_on (id : Nat) (point : Point) (s : Store) :
    (overwriteInPlace id point).on s =
      match s.overwrite id point with
      | .ok s' => (.ok (), s')
      | .error e => (.error e, s) := by
  rw [overwrite, overwriteInPlace]
  cases hcheck : point.checkDimension s.dimension with
  | error e =>
      simp only [on_bind, on_get, on_liftM, hcheck]
      rfl
  | ok _ =>
      simp only [on_bind, on_get, on_liftM, hcheck]
      cases hblock : s.blocks[id / s.blockSize]?.bind (·.overwrite? (id % s.blockSize) point) with
      | none => rfl
      | some block => rfl

end Store

end ExactNeighbors

import Isaforge.Catalog

/-!
# Growing groups

A group to which instructions are pushed keeps a table of their ids under their names, so that a
push need not go through the instructions that are there.  The push looks the name up in the table
and is refused when it finds it.  Otherwise it enters the next id under the name and keeps the
instruction.

A growing group is changed in place: whatever a change has done by the time it is refused stays
done.
-/

namespace Isaforge

/-- The instructions that were pushed, in order, and the table of their ids; the first entry of a
name counts. -/
structure GrowingGroup where
  name : String
  doc : String
  instructions : List Instruction := []
  ids : List (String × InstId) := []
deriving Repr

namespace GrowingGroup

/-- The group that has grown. -/
def group (g : GrowingGroup) : InstructionGroup :=
  ⟨g.name, g.doc, g.instructions⟩

/-- The number of instructions. -/
def size (g : GrowingGroup) : Nat :=
  g.instructions.length

/-- The instruction `id`. -/
def get? (g : GrowingGroup) (id : InstId) : Option Instruction :=
  g.instructions[id.index]?

/-- The id that the table has under `name`. -/
def byName? (g : GrowingGroup) (name : String) : Option InstId :=
  g.ids.lookup name

/-- What changes a growing group in place, and may be refused. -/
abbrev Change := ExceptT Error (StateM GrowingGroup)

/-- The answer to a change, and the group after it. -/
def perform {α : Type} (g : GrowingGroup) (c : Change α) : Except Error α × GrowingGroup :=
  c.run.run g

/-- Enter an id into the table, under a name. -/
def enter (name : String) (id : InstId) : Change Unit :=
  modify fun g => { g with ids := (name, id) :: g.ids }

/-- Keep an instruction, as the last one. -/
def keep (i : Instruction) : Change Unit :=
  modify fun g => { g with instructions := g.instructions ++ [i] }

/-- Add an instruction and give its id, unless the table has its name. -/
def push (i : Instruction) : Change InstId := do
  let g ← get
  if (g.byName? i.name).isSome then
    throw (.duplicateInstruction g.name i.name)
  let id : InstId := ⟨g.size⟩
  enter i.name id
  keep i
  return id

end GrowingGroup

end Isaforge

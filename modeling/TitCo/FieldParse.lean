import Mathlib.Data.List.Basic

/-! A message as a run of tagged fields, read by a loop over a switch. What a writer makes of one field
is a chunk, and a chunk that its case of the switch takes off again, whatever comes behind it, can
stand anywhere in the run. -/
namespace TitCo.FieldParse

/-- Where a case of the switch leaves the loop. -/
inductive Step (β : Type) where
  | next (m : β) (rest : List UInt8)
  | stop (m : β)

section
variable {β : Type} (readTag : List UInt8 → Option (Nat × List UInt8)) (field : Nat → β → List UInt8 → Step β)

/-- The message as far as it has been read, and whether the end of the input was reached. -/
def parse : Nat → β → List UInt8 → β × Bool
  | _,m,[] => (m,true)
  | 0,m,_ => (m,false)
  | fuel+1,m,bytes =>
    match readTag bytes with
    | none => (m,false)
    | some (tag,rest) =>
      match field tag m rest with
      | .next n left => parse fuel n left
      | .stop n => (n,false)

def Reads (chunk : List UInt8) (set : β → β) : Prop :=
  chunk ≠ [] ∧ ∀ m rest, ∃ tag left, readTag (chunk ++ rest) = some (tag,left) ∧ field tag m left = .next (set m) rest

def Stops (chunk : List UInt8) (set : β → β) : Prop :=
  chunk ≠ [] ∧ ∀ m rest, ∃ tag left, readTag (chunk ++ rest) = some (tag,left) ∧ field tag m left = .stop (set m)

variable {readTag} {field} {chunk : List UInt8} {set : β → β}

theorem parseReads (reads : Reads readTag field chunk set) (fuel : Nat) (m : β) (rest : List UInt8) :
    parse readTag field (fuel+1) m (chunk ++ rest) = parse readTag field fuel (set m) rest := by
  obtain ⟨some_,reads⟩ := reads
  obtain ⟨tag,left,first,goes⟩ := reads m rest
  obtain ⟨b,more,rfl⟩ := List.exists_cons_of_ne_nil some_
  rw [List.cons_append] at first ⊢
  simp only [parse,first,goes]

theorem parseStops (stops : Stops readTag field chunk set) (fuel : Nat) (m : β) (rest : List UInt8) :
    parse readTag field (fuel+1) m (chunk ++ rest) = (set m,false) := by
  obtain ⟨some_,stops⟩ := stops
  obtain ⟨tag,left,first,ends⟩ := stops m rest
  obtain ⟨b,more,rfl⟩ := List.exists_cons_of_ne_nil some_
  rw [List.cons_append] at first ⊢
  simp only [parse,first,ends]

/- The effects of a run of fields, in their order. -/
def effect (cs : List (List UInt8 × (β → β))) (m : β) : β := cs.foldl (fun n c => c.2 n) m

def bytesOf (cs : List (List UInt8 × (β → β))) : List UInt8 := cs.flatMap Prod.fst

theorem effectAppend (cs ds : List (List UInt8 × (β → β))) (m : β) : effect (cs ++ ds) m = effect ds (effect cs m) :=
  List.foldl_append

theorem bytesAppend (cs ds : List (List UInt8 × (β → β))) : bytesOf (cs ++ ds) = bytesOf cs ++ bytesOf ds :=
  List.flatMap_append

theorem chunksFit {cs : List (List UInt8 × (β → β))} (all : ∀ c ∈ cs, c.1 ≠ []) : cs.length ≤ (bytesOf cs).length := by
  induction cs with
  | nil => simp
  | cons c cs ih =>
    have some_ := List.length_pos_iff.2 (all c (by simp))
    have later := ih (fun d inside => all d (by simp [inside]))
    rw [show bytesOf (c::cs) = c.1 ++ bytesOf cs from rfl,List.length_append,List.length_cons]
    omega

theorem parseChunks {cs : List (List UInt8 × (β → β))} (all : ∀ c ∈ cs, Reads readTag field c.1 c.2) (fuel : Nat) (m : β)
    (rest : List UInt8) :
    parse readTag field (fuel + cs.length) m (bytesOf cs ++ rest) = parse readTag field fuel (effect cs m) rest := by
  induction cs generalizing m with
  | nil => rfl
  | cons c cs ih =>
    rw [show bytesOf (c::cs) = c.1 ++ bytesOf cs from rfl,List.append_assoc,List.length_cons,← Nat.add_assoc,
      parseReads (all c (by simp)),ih (fun d inside => all d (by simp [inside]))]
    rfl

/-- A run of readable fields is read to its end, whatever their order and number. -/
theorem parseWhole {cs : List (List UInt8 × (β → β))} (all : ∀ c ∈ cs, Reads readTag field c.1 c.2) (m : β) :
    parse readTag field (bytesOf cs).length m (bytesOf cs) = (effect cs m,true) := by
  have fit := chunksFit (fun c inside => (all c inside).1)
  obtain ⟨fuel,more⟩ := Nat.exists_eq_add_of_le' fit
  have whole := parseChunks all fuel m []
  rw [List.append_nil] at whole
  rw [more,whole]
  cases fuel <;> rfl

/-- A field that stops the loop hides what comes behind it. -/
theorem parseUpTo {cs : List (List UInt8 × (β → β))} (all : ∀ c ∈ cs, Reads readTag field c.1 c.2)
    (stops : Stops readTag field chunk set) (m : β) (rest : List UInt8) :
    parse readTag field (bytesOf cs ++ (chunk ++ rest)).length m (bytesOf cs ++ (chunk ++ rest)) =
      (set (effect cs m),false) := by
  have fit := chunksFit (fun c inside => (all c inside).1)
  have some_ := List.length_pos_iff.2 stops.1
  obtain ⟨fuel,more⟩ : ∃ fuel, (bytesOf cs ++ (chunk ++ rest)).length = fuel + 1 + cs.length :=
    ⟨(bytesOf cs ++ (chunk ++ rest)).length - 1 - cs.length,by simp only [List.length_append]; omega⟩
  rw [more,parseChunks all,parseStops stops]

end

end TitCo.FieldParse

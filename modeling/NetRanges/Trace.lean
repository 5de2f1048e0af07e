/-!
# Trace notes

Operations leave notes about what they did: a level, the part of the library that speaks, and
a line of text. A `Traced` value is a result with the notes left while computing it, in order.
Notes never change a result: `Traced.value_bind` says the value of a sequence is the value of
its last step applied to the earlier values.
-/
namespace NetRanges

/-- How much a note matters, from errors down to fine tracing. -/
inductive Level where
  | error
  | warn
  | info
  | debug
  | trace
  deriving DecidableEq, Repr

/-- The part of the library a note comes from. -/
inductive Origin where
  /-- Reading entries. -/
  | reading
  /-- Coarsening blocks. -/
  | coarsening
  /-- The export pipeline. -/
  | exporting
  /-- Reading settings. -/
  | settings
  /-- The command line. -/
  | command
  deriving DecidableEq, Repr

/-- One note: level, origin and text. -/
structure Note where
  level : Level
  origin : Origin
  text : String
  deriving DecidableEq, Repr

/-- A result with the notes left while computing it. -/
structure Traced (α : Type) where
  notes : List Note
  value : α

namespace Traced

instance : Monad Traced where
  pure a := ⟨[], a⟩
  bind x f := ⟨x.notes ++ (f x.value).notes, (f x.value).value⟩

def note (level : Level) (origin : Origin) (text : String) : Traced Unit :=
  ⟨[⟨level, origin, text⟩], ()⟩

@[simp] theorem value_pure {α : Type} (a : α) : (pure a : Traced α).value = a := rfl

@[simp] theorem value_bind {α β : Type} (x : Traced α) (f : α → Traced β) :
    (x >>= f).value = (f x.value).value := rfl

@[simp] theorem notes_bind {α β : Type} (x : Traced α) (f : α → Traced β) :
    (x >>= f).notes = x.notes ++ (f x.value).notes := rfl

@[simp] theorem value_map {α β : Type} (x : Traced α) (f : α → β) :
    (f <$> x).value = f x.value := rfl

/-- Notes are kept in order: appending them is associative and the empty list is neutral. -/
instance : LawfulMonad Traced :=
  LawfulMonad.mk' Traced
    (fun x => by
      show (⟨x.notes ++ [], x.value⟩ : Traced _) = x
      rw [List.append_nil])
    (fun a f => by
      show (⟨[] ++ (f a).notes, (f a).value⟩ : Traced _) = f a
      rw [List.nil_append])
    (fun x f g => by
      show (⟨x.notes ++ (f x.value).notes ++ (g (f x.value).value).notes, _⟩ : Traced _) =
        ⟨x.notes ++ ((f x.value).notes ++ (g (f x.value).value).notes), _⟩
      rw [List.append_assoc]
      rfl)

/-- Running an operation on every element gives, as value, the list of their values. -/
@[simp] theorem value_mapM {α β : Type} (f : α → Traced β) (xs : List α) :
    (xs.mapM f).value = xs.map fun x => (f x).value := by
  induction xs with
  | nil => rfl
  | cons x xs ih => simp [List.mapM_cons, ih]

end Traced

end NetRanges

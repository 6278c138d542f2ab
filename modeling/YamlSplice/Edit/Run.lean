/-
  YamlSplice.Edit.Run — the outcome of an edit, with notes of what was done on the way.

  Notes are kept when the edit fails later.
  - `Run.result_bind`: the outcome of a sequence is that of its parts.
-/

import YamlSplice.Edit.Failure

namespace YamlSplice

/-- The part of the library that a note comes from. -/
inductive Source where
  | key
  | stream
  | indent
  | updates
  deriving DecidableEq, Repr

/-- What an edit did, in its order. -/
inductive Note where
  | decoded (count : Nat)
  | fillingEmpty (key : Text)
  | deleting (key : Text)
  | appending (key : Text)
  | unchanged (key : Text)
  | replacing (key : Text)
  | merging (count : Nat) (key : Text)
  | indentFound (key : Text) (width : Nat)
  | updatingDocument (key : Text) (index : Nat)
  deriving DecidableEq, Repr

namespace Note

def source : Note → Source
  | decoded _ => .updates
  | indentFound _ _ => .indent
  | updatingDocument _ _ => .stream
  | _ => .key

def message : Note → Text
  | decoded count => "Decoded ".toList ++ Text.ofNat count ++ " update(s)".toList
  | fillingEmpty key => "Inserting ".toList ++ key ++ " into empty document".toList
  | deleting key => "Deleting ".toList ++ key
  | appending key => "Appending ".toList ++ key
  | unchanged key => key ++ " is unchanged".toList
  | replacing key => "Replacing ".toList ++ key
  | merging count key => "Merging ".toList ++ Text.ofNat count ++ " nested key(s) into ".toList ++ key
  | indentFound key width =>
    "Indent unit for ".toList ++ key ++ " is ".toList ++ Text.ofNat width ++ " space(s)".toList
  | updatingDocument key index =>
    "Updating ".toList ++ key ++ " in document ".toList ++ Text.ofNat index

end Note

/-- The result of an edit, and the notes it made until then. -/
structure Run (α : Type) where
  notes : List Note
  result : Except Failure α

namespace Run

variable {α β : Type}

instance : Monad Run where
  pure a := ⟨[], .ok a⟩
  bind r f :=
    match r.result with
    | .error e => ⟨r.notes, .error e⟩
    | .ok a => ⟨r.notes ++ (f a).notes, (f a).result⟩

/-- Makes a note. -/
def note (n : Note) : Run Unit := ⟨[n], .ok ()⟩

/-- Fails. -/
def fail (e : Failure) : Run α := ⟨[], .error e⟩

/-- A result without notes. -/
def ofExcept (result : Except Failure α) : Run α := ⟨[], result⟩

@[simp] theorem result_pure (a : α) : (pure a : Run α).result = .ok a := rfl

@[simp] theorem result_note (n : Note) : (note n).result = .ok () := rfl

@[simp] theorem result_ofExcept (x : Except Failure α) : (ofExcept x).result = x := rfl

@[simp] theorem result_bind (r : Run α) (f : α → Run β) :
    (r >>= f).result = r.result.bind (fun a => (f a).result) := by
  show (Bind.bind r f).result = _
  cases h : r.result <;> simp [Bind.bind, h, Except.bind]

end Run
end YamlSplice

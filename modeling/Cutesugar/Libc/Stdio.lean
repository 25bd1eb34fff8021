import Cutesugar.Libc.Format

/-!
# Streams (`libc/stdio/stdio.c`)

A stream writes each character with a system call of its own. Which one it is depends on the type of
the object behind the stream, and `fputstr`, `fputc` and `fprintf` each choose it in a `switch` of their
own.
-/

namespace Cutesugar.Libc

/-- `FILE`, with the fields that are used: the object, and the position in it. -/
structure File where
  object : ℕ
  position : Int64

/-- `invokesystemcall(number, object, offset, char, 0)`. -/
structure SystemCall where
  number : ℕ
  object : ℕ
  offset : ℤ
  char : UInt8
  deriving DecidableEq

variable (typeOf : ℕ → ℕ)

/-- `fputstr`. -/
def fputstr (stream : File) (str : List UInt8) : Except Fault (List SystemCall) :=
  let number :=
    match typeOf stream.object with
    | 2 => 5
    | 3 => 3
    | _ => 0
  (·.map fun c => ⟨number, stream.object, 0, c⟩) <$> putstr str

/-- `fputc`. -/
def fputc (stream : File) (c : UInt8) : SystemCall :=
  let number :=
    match typeOf stream.object with
    | 2 => 5
    | 5 => 4
    | _ => 0
  ⟨number, stream.object, stream.position.toInt, c⟩

/-- `fprintf`, with what it returns and its system calls. -/
def fprintf (stream : Option File) (format : Option (List UInt8)) (args : List Int32) :
    Except Fault (ℤ × List SystemCall) :=
  match stream, format with
  | some stream, some format =>
    -- devices of type 2 are written to with their own system call
    let number :=
      match typeOf stream.object with
      | 2 => 5
      | _ => 4
    (1, ·) <$> formatLoop (fun c => ⟨number, stream.object, 0, c⟩) (fputstr typeOf stream) false format
      args clearNumStr
  | _, _ => .ok (-1, [])

variable {typeOf} {stream : File} {format rest : List UInt8} {args : List Int32} {ps : List Piece}

/-- The number of the system call of `fputstr`. -/
def fputstrNumber (type : ℕ) : ℕ :=
  match type with
  | 2 => 5
  | 3 => 3
  | _ => 0

theorem fputstr_eq (typeOf : ℕ → ℕ) (stream : File) (str : List UInt8) (h : 0 ∈ str) :
    fputstr typeOf stream str = .ok ((cString str).map fun c =>
      ⟨fputstrNumber (typeOf stream.object), stream.object, 0, c⟩) := by
  rw [fputstr, putstr_eq h]
  rfl

/-- **The system calls of `fprintf`**. -/
theorem fprintf_eq (hargs : args.length = conversions ps) :
    fprintf typeOf (some stream) (some (text ps ++ 0 :: rest)) args =
      .ok (1, formatted (fun c => ⟨if typeOf stream.object = 2 then 5 else 4, stream.object, 0, c⟩)
        (fun c => ⟨fputstrNumber (typeOf stream.object), stream.object, 0, c⟩) false ps args
        clearNumStr) := by
  have hnumber : (match typeOf stream.object with | 2 => 5 | _ => 4) =
      if typeOf stream.object = 2 then 5 else 4 := by
    split
    · rename_i h
      rw [if_pos h]
    · rename_i h
      rw [if_neg h]
  rw [fprintf, hnumber, formatLoop_eq (fputstr_eq typeOf stream) hargs buffer_clear]
  rfl

end Cutesugar.Libc

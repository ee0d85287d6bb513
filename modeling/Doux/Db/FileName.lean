import Mathlib.Tactic
import Mathlib.Data.List.TakeWhile

namespace Doux
namespace Db

open List

/-!
# File names

All files of a database are in one directory and have a number and a type, both of
which are part of the name.  `ParseFileName` reads a name back.  Key tables and value
tables share one space of numbers: a flush gives the same number to a file of each
kind, and only the suffix tells them apart.
-/

/-- The name of a file, without the directory. -/
abbrev FileName := List Char

inductive FileType where
  | logFile
  | dbLockFile
  | tableFile
  | vtableFile
  | descriptorFile
  | currentFile
  | tempFile
  | infoLogFile
deriving DecidableEq

/-- The format `%06llu`. -/
def sixDigits (number : Nat) : List Char :=
  List.replicate (6 - (Nat.toDigits 10 number).length) '0' ++ Nat.toDigits 10 number

def makeFileName (number : Nat) (suffix : String) : FileName :=
  sixDigits number ++ '.' :: suffix.toList

def logFileName (number : Nat) : FileName := makeFileName number "log"

def tableFileName (number : Nat) : FileName := makeFileName number "ldb"

def vtableFileName (number : Nat) : FileName := makeFileName number "vldb"

def sstTableFileName (number : Nat) : FileName := makeFileName number "sst"

def descriptorFileName (number : Nat) : FileName := "MANIFEST-".toList ++ sixDigits number

def tempFileName (number : Nat) : FileName := makeFileName number "dbtmp"

def kMaxUint64 : Nat := 2 ^ 64 - 1

/-- The loop of `ConsumeDecimalNumber`.  It fails when the number does not fit. -/
def consumeDigits : Nat -> List Char -> Option (Nat × List Char)
  | value, [] => some (value, [])
  | value, ch :: rest =>
    if ch < '0' ∨ ch > '9' then some (value, ch :: rest)
    else if value > kMaxUint64 / 10 ∨ (value = kMaxUint64 / 10 ∧ ch > '5') then none
    else consumeDigits (value * 10 + (ch.toNat - '0'.toNat)) rest

/-- `ConsumeDecimalNumber`: the number at the start of a text, and what follows. -/
def consumeDecimalNumber (text : List Char) : Option (Nat × List Char) :=
  (consumeDigits 0 text).filter (fun parsed => parsed.2.length ≠ text.length)

def suffixType (suffix : List Char) : Option FileType :=
  if suffix = ".log".toList then some .logFile
  else if suffix = ".sst".toList ∨ suffix = ".ldb".toList then some .tableFile
  else if suffix = ".vldb".toList then some .vtableFile
  else if suffix = ".dbtmp".toList then some .tempFile
  else none

def parseFileName (name : FileName) : Option (Nat × FileType) :=
  if name = "CURRENT".toList then some (0, .currentFile)
  else if name = "LOCK".toList then some (0, .dbLockFile)
  else if name = "LOG".toList ∨ name = "LOG.old".toList then some (0, .infoLogFile)
  else if "MANIFEST-".toList <+: name then
    (consumeDecimalNumber (name.drop "MANIFEST-".length)).bind (fun parsed =>
      if parsed.2 = [] then some (parsed.1, .descriptorFile) else none)
  else
    (consumeDecimalNumber name).bind (fun parsed =>
      (suffixType parsed.2).map (fun type => (parsed.1, type)))

variable {number : Nat} {ch : Char}

theorem isDigit_of_mem_sixDigits (member : ch ∈ sixDigits number) : ch.isDigit = true := by
  rcases mem_append.mp member with padding | digit
  · rw [eq_of_mem_replicate padding]
    rfl
  · exact Nat.isDigit_of_mem_toDigits (by decide) (by decide) digit

variable (number : Nat)

theorem sixDigits_ne_nil : sixDigits number ≠ [] := by
  intro empty
  exact Nat.toDigits_ne_nil (append_eq_nil_iff.mp empty).2

theorem ofDigitChars_sixDigits : Nat.ofDigitChars 10 (sixDigits number) 0 = number := by
  rw [sixDigits, Nat.ofDigitChars_append, Nat.ofDigitChars_replicate_zero, mul_zero,
    Nat.ofDigitChars_ten_toDigits]

theorem le_ofDigitChars (text : List Char) (value : Nat) :
    value ≤ Nat.ofDigitChars 10 text value := by
  induction text generalizing value with
  | nil => simp
  | cons ch rest ih =>
    rw [Nat.ofDigitChars_cons]
    exact le_trans (by omega) (ih _)

theorem lt_iff_toNat_lt (a b : Char) : a < b <-> a.toNat < b.toNat := Iff.rfl

theorem toNat_of_isDigit (digit : ch.isDigit = true) : 48 ≤ ch.toNat ∧ ch.toNat ≤ 57 := by
  have bounds := Bool.and_eq_true_iff.mp digit
  exact ⟨of_decide_eq_true bounds.1, of_decide_eq_true bounds.2⟩

theorem not_isDigit_iff : ¬ ch.isDigit = true <-> ch < '0' ∨ ch > '9' := by
  simp [Char.isDigit, Char.lt_def, imp_iff_not_or]

theorem overflows_iff (digit : ch.isDigit = true) (value : Nat) :
    (value > kMaxUint64 / 10 ∨ (value = kMaxUint64 / 10 ∧ ch > '5')) <->
      ¬ 10 * value + (ch.toNat - '0'.toNat) ≤ kMaxUint64 := by
  have bounds := toNat_of_isDigit digit
  have last : ch > '5' <-> 53 < ch.toNat := lt_iff_toNat_lt _ _
  have zero : '0'.toNat = 48 := rfl
  rw [last, kMaxUint64]
  omega

section
variable {digits rest : List Char} (areDigits : ∀ ch ∈ digits, ch.isDigit)
  (ends : ∀ ch ∈ rest.head?, ch < '0' ∨ ch > '9')
include areDigits ends

/-- The digits at the start of a text are read as a number that fits 64 bits. -/
theorem consumeDigits_append {value : Nat} (small : value ≤ kMaxUint64) :
    consumeDigits value (digits ++ rest) = if Nat.ofDigitChars 10 digits value ≤ kMaxUint64 then
        some (Nat.ofDigitChars 10 digits value, rest) else none := by
  induction digits generalizing value with
  | nil =>
    rw [Nat.ofDigitChars_nil, if_pos small]
    cases rest with
    | nil => rfl
    | cons ch rest => exact if_pos (ends ch rfl)
  | cons ch digits ih =>
    rcases forall_mem_cons.mp areDigits with ⟨digit, others⟩
    rw [cons_append, consumeDigits, if_neg (fun other => not_isDigit_iff.mpr other digit),
      Nat.ofDigitChars_cons]
    by_cases fits : 10 * value + (ch.toNat - '0'.toNat) ≤ kMaxUint64
    · rw [if_neg (fun large => (overflows_iff digit value).mp large fits), mul_comm value,
        ih others fits]
    · have larger := le_ofDigitChars digits (10 * value + (ch.toNat - '0'.toNat))
      rw [if_pos ((overflows_iff digit value).mpr fits), if_neg (by omega)]

theorem consumeDecimalNumber_append : consumeDecimalNumber (digits ++ rest) =
      if digits ≠ [] ∧ Nat.ofDigitChars 10 digits 0 ≤ kMaxUint64 then
        some (Nat.ofDigitChars 10 digits 0, rest) else none := by
  rw [consumeDecimalNumber, consumeDigits_append areDigits ends (Nat.zero_le _), ite_and]
  have longer : rest.length = (digits ++ rest).length <-> digits = [] := by simp
  by_cases fits : Nat.ofDigitChars 10 digits 0 ≤ kMaxUint64
  · rw [if_pos fits, Option.filter_some]
    simp only [ne_eq, longer, decide_eq_true_eq]
  · simp [fits]

end

/-- A written number is read back, if it fits 64 bits. -/
theorem consumeDecimalNumber_sixDigits {rest : List Char}
    (ends : ∀ ch ∈ rest.head?, ch < '0' ∨ ch > '9') :
    consumeDecimalNumber (sixDigits number ++ rest) =
      if number ≤ kMaxUint64 then some (number, rest) else none := by
  rw [consumeDecimalNumber_append (fun _ => isDigit_of_mem_sixDigits) ends, ofDigitChars_sixDigits]
  simp [sixDigits_ne_nil]

/-- A name that starts with a digit is none of the fixed names. -/
theorem sixDigits_append_ne (rest : List Char) {fixed : List Char}
    (letter : fixed.head?.any Char.isDigit = false) : sixDigits number ++ rest ≠ fixed := by
  intro same
  rcases exists_cons_of_ne_nil (sixDigits_ne_nil number) with ⟨first, _, split⟩
  have digit := isDigit_of_mem_sixDigits (split ▸ mem_cons_self : first ∈ sixDigits number)
  rw [← same, split, cons_append, head?_cons, Option.any_some, digit] at letter
  cases letter

theorem parseFileName_makeFileName (suffix : String) :
    parseFileName (makeFileName number suffix) = if number ≤ kMaxUint64 then
        (suffixType ('.' :: suffix.toList)).map (fun type => (number, type)) else none := by
  have fixed {text : List Char} (letter : text.head?.any Char.isDigit = false) :
      makeFileName number suffix ≠ text := sixDigits_append_ne number _ letter
  have notManifest : ¬ "MANIFEST-".toList <+: makeFileName number suffix := by
    rintro ⟨_, same⟩
    exact fixed rfl same.symm
  have ends : ∀ ch ∈ ('.' :: suffix.toList).head?, ch < '0' ∨ ch > '9' := by
    intro _ isFirst
    cases isFirst
    decide
  unfold parseFileName
  rw [if_neg (fixed (by decide)), if_neg (fixed (by decide)),
    if_neg (not_or.mpr ⟨fixed (by decide), fixed (by decide)⟩), if_neg notManifest,
    makeFileName, consumeDecimalNumber_sixDigits number ends]
  split <;> rfl

theorem parseFileName_descriptorFileName : parseFileName (descriptorFileName number) =
      if number ≤ kMaxUint64 then some (number, .descriptorFile) else none := by
  have fixed {text : List Char} (other : text.head? ≠ some 'M') :
      descriptorFileName number ≠ text := by
    intro same
    exact other (same ▸ rfl)
  have manifest : "MANIFEST-".toList <+: descriptorFileName number := prefix_append _ _
  have tail : (descriptorFileName number).drop "MANIFEST-".length = sixDigits number ++ [] := by
    rw [append_nil]
    exact drop_left
  unfold parseFileName
  rw [if_neg (fixed (by decide)), if_neg (fixed (by decide)),
    if_neg (not_or.mpr ⟨fixed (by decide), fixed (by decide)⟩),
    if_pos manifest, tail, consumeDecimalNumber_sixDigits number (by simp)]
  split <;> rfl

theorem parseFileName_eq_some {number read : Nat} {type : FileType} :
    (parseFileName (tableFileName number) = some (read, type) ->
      read = number ∧ type = .tableFile) ∧
    (parseFileName (sstTableFileName number) = some (read, type) ->
      read = number ∧ type = .tableFile) ∧
    (parseFileName (vtableFileName number) = some (read, type) ->
      read = number ∧ type = .vtableFile) ∧
    (parseFileName (logFileName number) = some (read, type) -> read = number ∧ type = .logFile) ∧
    (parseFileName (descriptorFileName number) = some (read, type) ->
      read = number ∧ type = .descriptorFile) := by
  have each {name : FileName} {expected : FileType}
      (parsed : parseFileName name = if number ≤ kMaxUint64 then some (number, expected) else none)
      (found : parseFileName name = some (read, type)) : read = number ∧ type = expected := by
    rw [parsed] at found
    split at found
    · cases found
      exact ⟨rfl, rfl⟩
    · cases found
  exact ⟨each (parseFileName_makeFileName number "ldb"),
    each (parseFileName_makeFileName number "sst"),
    each (parseFileName_makeFileName number "vldb"),
    each (parseFileName_makeFileName number "log"),
    each (parseFileName_descriptorFileName number)⟩

/-! ## The number of a name -/

/-- The digits of a name, at its start or after `MANIFEST-`. -/
def nameDigits (name : FileName) : List Char :=
  (if "MANIFEST-".toList <+: name then name.drop "MANIFEST-".length else name).takeWhile
    Char.isDigit

abbrev FileType.Numbered (type : FileType) : Prop :=
  type ∉ [currentFile, dbLockFile, infoLogFile]

theorem consumeDecimalNumber_eq_some {text rest : List Char} {number : Nat}
    (read : consumeDecimalNumber text = some (number, rest)) :
    Nat.ofDigitChars 10 (text.takeWhile Char.isDigit) 0 = number ∧ number ≤ kMaxUint64 ∧
      text.takeWhile Char.isDigit ≠ [] := by
  have ends : ∀ ch ∈ (text.dropWhile Char.isDigit).head?, ch < '0' ∨ ch > '9' := by
    intro ch isFirst
    have other := head?_dropWhile_not Char.isDigit text
    rw [isFirst] at other
    exact not_isDigit_iff.mp (by simpa using other)
  rw [<- takeWhile_append_dropWhile (p := Char.isDigit) (l := text),
    consumeDecimalNumber_append (fun _ => mem_takeWhile_imp) ends] at read
  split at read
  · rename_i good
    cases read
    exact ⟨rfl, good.2, good.1⟩
  · cases read

theorem parseFileName_number {name : FileName} {number : Nat} {type : FileType}
    (parsed : parseFileName name = some (number, type)) :
    Nat.ofDigitChars 10 (nameDigits name) 0 = number ∧ number ≤ kMaxUint64 ∧
      (type.Numbered -> nameDigits name ≠ []) := by
  unfold parseFileName at parsed
  split_ifs at parsed with current lock info manifest
  · cases parsed
    exact ⟨by rw [current]; rfl, Nat.zero_le _, fun numbered => absurd numbered (by decide)⟩
  · cases parsed
    exact ⟨by rw [lock]; rfl, Nat.zero_le _, fun numbered => absurd numbered (by decide)⟩
  · cases parsed
    exact ⟨by rcases info with rfl | rfl <;> rfl, Nat.zero_le _,
      fun numbered => absurd numbered (by decide)⟩
  · rcases Option.bind_eq_some_iff.mp parsed with ⟨_, read, rest⟩
    split at rest
    · cases rest
      rw [nameDigits, if_pos manifest]
      exact (consumeDecimalNumber_eq_some read).imp_right (And.imp_right fun some _ => some)
    · cases rest
  · rcases Option.bind_eq_some_iff.mp parsed with ⟨_, read, rest⟩
    rcases Option.map_eq_some_iff.mp rest with ⟨_, _, same⟩
    cases same
    rw [nameDigits, if_neg manifest]
    exact (consumeDecimalNumber_eq_some read).imp_right (And.imp_right fun some _ => some)

/-- The names that are made from a number are read back.  A name that is read has digits
that denote the number, and a number that does not fit 64 bits is not read. -/
theorem parseFileName_exact : (forall number, 1 ≤ number -> number < 2 ^ 64 ->
      parseFileName (logFileName number) = some (number, .logFile) ∧
      parseFileName (tableFileName number) = some (number, .tableFile) ∧
      parseFileName (vtableFileName number) = some (number, .vtableFile) ∧
      parseFileName (sstTableFileName number) = some (number, .tableFile) ∧
      parseFileName (tempFileName number) = some (number, .tempFile) ∧
      parseFileName (descriptorFileName number) = some (number, .descriptorFile)) ∧
    (forall name number type, parseFileName name = some (number, type) -> type.Numbered ->
      nameDigits name ≠ [] ∧ Nat.ofDigitChars 10 (nameDigits name) 0 = number ∧ number < 2 ^ 64) ∧
    forall name, 2 ^ 64 ≤ Nat.ofDigitChars 10 (nameDigits name) 0 -> parseFileName name = none := by
  refine ⟨fun number _ range => ?_, fun name number type parsed numbered => ?_,
    fun name large => Option.eq_none_iff_forall_ne_some.mpr fun ⟨number, type⟩ parsed => ?_⟩
  · have fits : number ≤ kMaxUint64 := Nat.le_pred_of_lt range
    have each (suffix : String) := (parseFileName_makeFileName number suffix).trans (if_pos fits)
    exact ⟨each "log", each "ldb", each "vldb", each "sst", each "dbtmp",
      (parseFileName_descriptorFileName number).trans (if_pos fits)⟩
  · rcases parseFileName_number parsed with ⟨value, range, digits⟩
    exact ⟨digits numbered, value, Nat.lt_of_le_pred (by decide) range⟩
  · rcases parseFileName_number parsed with ⟨value, range, _⟩
    unfold kMaxUint64 at range
    omega

end Db
end Doux

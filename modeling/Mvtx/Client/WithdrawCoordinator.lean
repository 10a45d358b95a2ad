import Mathlib.Data.List.TakeWhile
import Mvtx.Client.Coordinator
import Mvtx.Lib.Serial

/-!
# WithdrawCoordinator

A program uses a Coordinator one call after another, and goes on with what the
reads have returned.  `WithdrawCoordinator::run` reads the balances of two
accounts and takes an amount from the first one, if the two have enough
together.
-/

namespace Mvtx.Client

open Lib Lib.Serial

/-- What a program does next with its Coordinator. -/
inductive Program where
  | read (key : Nat) (next : Option String → Program)
  | write (key : Nat) (value : String) (next : Program)
  | commit
  | abort
  /-- A null pointer is dereferenced. -/
  | crash

/-- What a program asks for, given what its reads have returned. -/
def Program.operations : Program → List (Option String) → List (Operation Nat String)
  | .read key _, [] => [.read key]
  | .read key next, answer :: answers => .read key :: (next answer).operations answers
  | .write key value next, answers => .write key value :: next.operations answers
  | .commit, _ | .abort, _ | .crash, _ => []

/-! ## Numbers in texts -/

/-- Conversion to `int`, which has 32 bits. -/
def asInt (number : Int) : Int :=
  number.bmod (2 ^ 32)

/-- The characters that `atoi` skips. -/
def isSpace (char : Char) : Bool :=
  char = ' ' || (9 ≤ char.toNat && char.toNat ≤ 13)

/-- The number that the digits at the front of a text stand for. -/
def digits (text : List Char) : Int :=
  Nat.ofDigitChars 10 (text.takeWhile Char.isDigit) 0

/-- A number with a sign or without. -/
def signed : List Char → Int
  | '-' :: text => -digits text
  | '+' :: text => digits text
  | text => digits text

/-- The bounds of `long`, at which `strtol` stops. -/
def asLong (number : Int) : Int :=
  max (-2 ^ 63) (min number (2 ^ 63 - 1))

/--
`atoi`, which converts what `strtol` returns to `int`; the language leaves open
what becomes of a number that is no `int`.
-/
def atoi (text : String) : Int :=
  asInt (asLong (signed (text.toList.dropWhile isSpace)))

theorem asInt_of_range {number : Int} (low : -2 ^ 31 ≤ number) (high : number < 2 ^ 31) :
    asInt number = number :=
  Int.bmod_eq_of_le (by omega) (by omega)

theorem asLong_of_range {number : Int} (low : -2 ^ 31 ≤ number) (high : number < 2 ^ 31) :
    asLong number = number := by
  unfold asLong
  omega

theorem asInt_range (number : Int) : -2 ^ 31 ≤ asInt number ∧ asInt number < 2 ^ 31 := by
  have low : -((2 ^ 32 : Nat) / 2 : Int) ≤ number.bmod (2 ^ 32) := Int.le_bmod (by decide)
  have high : number.bmod (2 ^ 32) < ((2 ^ 32 : Nat) + 1) / 2 := Int.bmod_lt (by decide)
  unfold asInt
  omega

theorem atoi_range (text : String) : -2 ^ 31 ≤ atoi text ∧ atoi text < 2 ^ 31 :=
  asInt_range _

theorem digits_toDigits (number : Nat) : digits (Nat.toDigits 10 number) = number := by
  have all : ∀ char ∈ Nat.toDigits 10 number, char.isDigit = true := fun char member =>
    Nat.isDigit_of_mem_toDigits (by decide) (by decide) member
  rw [digits, List.takeWhile_eq_self_iff.2 all, Nat.ofDigitChars_ten_toDigits]

/-- A text that begins with a digit has no sign. -/
theorem signed_of_digit {char : Char} {text : List Char} (isDigit : char.isDigit = true) :
    signed (char :: text) = digits (char :: text) := by
  have minus : char ≠ '-' := by
    rintro rfl
    exact absurd isDigit (by decide)
  have plus : char ≠ '+' := by
    rintro rfl
    exact absurd isDigit (by decide)
  unfold signed
  split <;> simp_all

theorem not_isSpace_of_isDigit {char : Char} (isDigit : char.isDigit = true) :
    isSpace char = false := by
  have low : 48 ≤ char.toNat := by
    simp [Char.isDigit, UInt32.le_iff_toNat_le] at isDigit
    exact isDigit.1
  have differs : char ≠ ' ' := by
    rintro rfl
    exact absurd low (by decide)
  simp [isSpace, differs]
  omega

/-- `atoi` reads what `std::to_string` writes. -/
theorem atoi_toString {number : Int} (low : -2 ^ 31 ≤ number) (high : number < 2 ^ 31) :
    atoi (toString number) = number := by
  suffices written : signed ((toString number).toList.dropWhile isSpace) = number by
    rw [atoi, written, asLong_of_range low high, asInt_of_range low high]
  rw [Int.toString_eq_repr, Int.repr_eq_if]
  split
  · next positive =>
      obtain ⟨first, rest, text⟩ := List.exists_cons_of_ne_nil
        (show Nat.toDigits 10 number.toNat ≠ [] from Nat.toDigits_ne_nil)
      have isDigit : first.isDigit = true := Nat.isDigit_of_mem_toDigits (by decide) (by decide)
        (text ▸ List.mem_cons_self : first ∈ Nat.toDigits 10 number.toNat)
      have read := digits_toDigits number.toNat
      rw [Nat.toList_repr, text,
        List.dropWhile_cons_of_neg (by simp [not_isSpace_of_isDigit isDigit]),
        signed_of_digit isDigit, ← text, read]
      omega
  · next negative =>
      have read := digits_toDigits (-number).toNat
      rw [String.toList_append, Nat.toList_repr]
      show signed (('-' :: Nat.toDigits 10 (-number).toNat).dropWhile isSpace) = number
      rw [List.dropWhile_cons_of_neg (by decide), signed, read]
      omega

/-! ## Withdrawals -/

/-- `WithdrawCoordinator::run`. -/
def WithdrawCoordinator.run (amount : Nat) : Program :=
  .read 1 fun value1 =>
    match value1 with
    | none => .crash
    | some text1 =>
        .read 2 fun value2 =>
          match value2 with
          | none => .crash
          | some text2 =>
              let balance1 := atoi text1
              let balance2 := atoi text2
              if asInt amount ≤ balance1 + balance2 then
                .write 1 (toString (asInt (balance1 - amount))) .commit
              else .commit

/-- The two accounts have no debt together, and the sum of their balances is an `int`. -/
structure Solvent (contents : Nat → String) : Prop where
  nonneg : 0 ≤ atoi (contents 1) + atoi (contents 2)
  bound : atoi (contents 1) + atoi (contents 2) < 2 ^ 31

theorem solvent_initial : Solvent fun _ => "0" := by
  have zero : atoi (toString (0 : Int)) = 0 := atoi_toString (by decide) (by decide)
  change atoi "0" = 0 at zero
  constructor <;> simp [zero]

/-- What a withdrawal does by itself. -/
theorem WithdrawCoordinator.execute_run {amount : Nat} {operations : List (Operation Nat String)}
    {answers : List (Option String)} {contents : Nat → String}
    (ran : operations = (run amount).operations answers)
    (returned : answers = (execute operations contents).1.map fun answer => some answer.2) :
    (execute operations contents).2 =
      if asInt amount ≤ atoi (contents 1) + atoi (contents 2) then
        Function.update contents 1 (toString (asInt (atoi (contents 1) - amount)))
      else contents := by
  subst ran
  -- The reads return what the accounts hold, so both are there.
  match answers with
  | [] | [none] | [some _] | none :: _ :: _ | some _ :: none :: _ =>
      simp [Program.operations, run, execute] at returned
  | some text1 :: some text2 :: rest =>
      obtain ⟨rfl, rfl⟩ : text1 = contents 1 ∧ text2 = contents 2 := by
        simp only [Program.operations, run, execute, List.map_cons, List.cons.injEq,
          Option.some.injEq] at returned
        exact ⟨returned.1, returned.2.1⟩
      simp only [Program.operations, run, execute]
      split <;> simp [Program.operations, execute]

/-- A withdrawal leaves no debt. -/
theorem Solvent.withdraw {contents : Nat → String} {amount : Nat} (solvent : Solvent contents)
    (small : amount < 2 ^ 31) (enough : asInt amount ≤ atoi (contents 1) + atoi (contents 2)) :
    Solvent (Function.update contents 1 (toString (asInt (atoi (contents 1) - amount)))) := by
  have whole : asInt amount = amount := asInt_of_range (by omega) (by exact_mod_cast small)
  have range1 := atoi_range (contents 1)
  have range2 := atoi_range (contents 2)
  obtain ⟨nonneg, bound⟩ := solvent
  have left : asInt (atoi (contents 1) - amount) = atoi (contents 1) - amount :=
    asInt_of_range (by omega) (by omega)
  have read :
      atoi (toString (asInt (atoi (contents 1) - amount))) = atoi (contents 1) - amount := by
    rw [left]
    exact atoi_toString (by omega) (by omega)
  constructor <;> rw [Function.update_self, Function.update_of_ne (by decide), read] <;> omega

end Mvtx.Client

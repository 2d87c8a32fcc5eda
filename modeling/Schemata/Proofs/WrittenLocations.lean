import Schemata.Proofs.PartNames
import Schemata.Proofs.Relocation

/-!
# Reading written locations

Integers are read back as they were written, unless they have too many digits, and so are
locations.
-/

namespace Schemata.Text

/-- A natural number is read back, unless it is too long. -/
theorem readNatural_toDigits {n : Nat} (h : n < 10 ^ digitLimit) :
    readNatural (Nat.toDigits 10 n) = .ok n := by
  have hread := readInteger_index h
  rw [readInteger_eq_readNatural (isDigit_of_mem_index n)] at hread
  obtain ⟨found, hfound, hvalue⟩ := map_eq_ok.mp hread
  rw [hfound, Int.ofNat.inj hvalue]

/-- An integer is read back, unless it is too long. -/
theorem readInteger_integer {n : Int} (h : n.natAbs < 10 ^ digitLimit) :
    readInteger (integer n) = .ok n := by
  cases n with
  | ofNat n => exact readInteger_index h
  | negSucc n =>
      have hkept : ∀ c ∈ '-' :: Nat.toDigits 10 (n + 1), isPadding c = false := by
        intro c hc
        rcases List.mem_cons.mp hc with rfl | hdigit
        · rfl
        · exact isPadding_of_isDigit (isDigit_of_mem_index _ c hdigit)
      have hread : readNatural (Nat.toDigits 10 (n + 1)) = .ok (n + 1) := readNatural_toDigits h
      have hsign : splitSign ('-' :: Nat.toDigits 10 (n + 1)) = (true, Nat.toDigits 10 (n + 1)) :=
        rfl
      rw [integer, readInteger, trim_eq_self hkept, hsign]
      dsimp only
      rw [hread]
      rfl

end Schemata.Text

namespace Schemata.Source

namespace Location

/-- None of the numbers of a location is too long to be read. -/
def Readable (location : Location) : Prop :=
  ∀ field ∈ location.fields, field.natAbs < 10 ^ Text.digitLimit

variable {location : Location}

/-- A location is read back as it was written. -/
theorem ofCode?_code (h : location.Readable) : ofCode? location.code = some location := by
  have hfields : ∀ fields : List Int, (∀ field ∈ fields, field.natAbs < 10 ^ Text.digitLimit) →
      (fields.map Text.integer).mapM (fun field => (Text.readInteger field).toOption) =
        some fields := by
    intro fields hfields
    induction fields with
    | nil => rfl
    | cons field rest ih =>
        have hfirst := Text.readInteger_integer (hfields field List.mem_cons_self)
        have hrest := ih fun other hother => hfields other (List.mem_cons_of_mem _ hother)
        rw [List.map_cons, List.mapM_cons, hfirst, hrest]
        rfl
  rw [ofCode?, splitOn_code, hfields _ h]
  exact ofFields?_fields location

theorem ofCode_code (h : location.Readable) : ofCode (some location.code) = location := by
  rw [ofCode, Option.bind_some, ofCode?_code h]
  rfl

end Location

end Schemata.Source

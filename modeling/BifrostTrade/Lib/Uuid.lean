import BifrostTrade.Lib.Blobs

/-!
# New UUIDs

`uuid.uuid4().hex` is 32 hexadecimal digits; which ones is up to chance.
-/

namespace Py

/-- `uuid.uuid4().hex`. -/
structure UuidHex where
  hex : String
  length_hex : hex.toList.length = 32
  digits : ∀ c ∈ hex.toList, ∃ n : Fin 16, c = hexDigit n

namespace UuidHex

theorem isSpace_of_mem {uuid : UuidHex} {c : Char} (h : c ∈ uuid.hex.toList) :
    isSpace c = false := by
  have hdigits : ∀ n : Fin 16, isSpace (hexDigit n) = false := by decide
  obtain ⟨n, rfl⟩ := uuid.digits c h
  exact hdigits n

theorem hex_ne_empty (uuid : UuidHex) : uuid.hex ≠ "" := by
  intro hempty
  have hlength := uuid.length_hex
  rw [hempty] at hlength
  cases hlength

/-- The UUID of 32 digits. -/
def ofDigits (ds : Fin 32 → Fin 16) : UuidHex where
  hex := String.ofList (List.ofFn fun i => hexDigit (ds i))
  length_hex := by rw [String.toList_ofList, List.length_ofFn]
  digits c hc := by
    rw [String.toList_ofList, List.mem_ofFn] at hc
    obtain ⟨i, rfl⟩ := hc
    exact ⟨ds i, rfl⟩

end UuidHex

end Py

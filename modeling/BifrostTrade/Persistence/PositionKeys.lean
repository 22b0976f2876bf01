import BifrostTrade.Persistence.PositionSync

/-!
# Keys of positions

Which positions of an account share a row of `positions`.  The key of an option has its symbol,
expiry, strike and right, and that of any other position only its symbol and security type
(`contractKey_eq_iff`).
-/

namespace Persistence

open Py Portfolio

/-- What tells two contracts apart. -/
structure Contract where
  symbol : Option String
  secType : Option String
  expiry : Option String
  strike : Option ℚ
  right : Option String
  currency : Option String
  deriving DecidableEq

/-- The contract of a row. -/
def PositionRow.contract (r : PositionRow) : Contract :=
  ⟨r.symbol, r.secType, r.expiry, r.strike, r.optionRight, r.currency⟩

/-- Two positions that are different contracts are stored under different keys. -/
def KeysDiffer (now : Instant) (accountId : String) (p q : PositionItem) : Prop :=
  (positionRow now accountId p).contract ≠ (positionRow now accountId q).contract →
    (positionRow now accountId p).contractKey ≠ (positionRow now accountId q).contractKey

/-- No text in front of a separator of the key has one, and the strike is a float. -/
structure PositionItem.Plain (p : PositionItem) : Prop where
  symbol : NoPipe (textOrEmpty p.symbol)
  secType : NoPipe (firstText p.secType p.sec_type)
  expiry : NoPipe (firstText p.lastTradeDateOrContractMonth p.expiry)
  strike : ReadsBack p.strike.finite

/-- The fields a key is made of are the same. -/
def SameKeyFields (r s : PositionRow) : Prop :=
  r.symbol = s.symbol ∧ r.secType = s.secType ∧
    (r.secType = some "OPT" → r.expiry = s.expiry ∧ r.strike = s.strike ∧
      r.optionRight = s.optionRight)

variable {now : Instant} {a : String} {p q : PositionItem}

theorem noneIfEmpty_inj {s t : String} :
    ((if s = "" then none else some s) = if t = "" then none else some t) ↔ s = t := by
  by_cases hs : s = "" <;> by_cases ht : t = "" <;> simp [hs, ht, eq_comm]

theorem contractKey_positionRow_opt (h : firstText p.secType p.sec_type = "OPT") :
    (positionRow now a p).contractKey =
      optKey (textOrEmpty p.symbol) (firstText p.lastTradeDateOrContractMonth p.expiry)
        p.strike.finite (textOrEmpty p.right) "None" :=
  if_pos h

theorem contractKey_positionRow_stk (h : firstText p.secType p.sec_type ≠ "OPT") :
    (positionRow now a p).contractKey =
      stkKey (textOrEmpty p.symbol) (firstText p.secType p.sec_type) :=
  if_neg h

/-- The fields of two rows, by what their items hold. -/
theorem sameKeyFields_iff :
    SameKeyFields (positionRow now a p) (positionRow now a q) ↔
      textOrEmpty p.symbol = textOrEmpty q.symbol ∧
        firstText p.secType p.sec_type = firstText q.secType q.sec_type ∧
        (firstText p.secType p.sec_type = "OPT" →
          firstText p.lastTradeDateOrContractMonth p.expiry =
              firstText q.lastTradeDateOrContractMonth q.expiry ∧
            p.strike.finite = q.strike.finite ∧ textOrEmpty p.right = textOrEmpty q.right) := by
  simp only [SameKeyFields, positionRow, PositionItem.sec, Option.some.injEq, noneIfEmpty_inj]

/-- Two positions without separators in their texts are stored under one key if and only if both are
options with the same symbol, expiry, strike and right, or both of one other security type with the
same symbol. -/
theorem contractKey_eq_iff (now : Instant) (accountId : String) (p q : PositionItem) (hp : p.Plain)
    (hq : q.Plain) :
    (positionRow now accountId p).contractKey = (positionRow now accountId q).contractKey ↔
      SameKeyFields (positionRow now accountId p) (positionRow now accountId q) := by
  rw [sameKeyFields_iff]
  by_cases hopt : firstText p.secType p.sec_type = "OPT"
  · rw [contractKey_positionRow_opt hopt]
    by_cases hopt' : firstText q.secType q.sec_type = "OPT"
    · rw [contractKey_positionRow_opt hopt', hopt, hopt']
      constructor
      · intro h
        obtain ⟨hs, he, hk, hr⟩ :=
          optKey_inj hp.symbol hq.symbol hp.expiry hq.expiry hp.strike hq.strike h
        exact ⟨hs, rfl, fun _ => ⟨he, hk, hr⟩⟩
      · rintro ⟨hs, -, h⟩
        obtain ⟨he, hk, hr⟩ := h rfl
        rw [hs, he, hk, hr]
    · rw [contractKey_positionRow_stk hopt']
      constructor
      · exact fun h => absurd h (optKey_ne_stkKey hp.symbol hq.symbol hq.secType hopt')
      · rintro ⟨-, hsec, -⟩
        exact absurd (hsec.symm.trans hopt) hopt'
  · rw [contractKey_positionRow_stk hopt]
    by_cases hopt' : firstText q.secType q.sec_type = "OPT"
    · rw [contractKey_positionRow_opt hopt']
      constructor
      · exact fun h => absurd h.symm (optKey_ne_stkKey hq.symbol hp.symbol hp.secType hopt)
      · rintro ⟨-, hsec, -⟩
        exact absurd (hsec.trans hopt') hopt
    · rw [contractKey_positionRow_stk hopt']
      constructor
      · intro h
        obtain ⟨hs, ht⟩ := stkKey_inj hp.symbol hq.symbol hp.secType hq.secType h
        exact ⟨hs, ht, fun h => absurd h hopt⟩
      · rintro ⟨hs, ht, -⟩
        rw [hs, ht]

/-- A position of one contract of some security type. -/
def sampleContract (symbol secType expiry : String) (strike : PayloadValue) :
    PositionItem :=
  { samplePosition with
    symbol := some symbol, secType := some secType, expiry := some expiry, strike }

/-- Two calls on one stock with different strikes. -/
theorem contractKey_eq_iff_calls :
    (positionRow 0 "U1" (sampleContract "AAPL" "OPT" "20261016" (.text "82.5"))).contractKey =
        (positionRow 0 "U1" (sampleContract "AAPL" "OPT" "20261016" (.text "82"))).contractKey ↔
      SameKeyFields (positionRow 0 "U1" (sampleContract "AAPL" "OPT" "20261016" (.text "82.5")))
        (positionRow 0 "U1" (sampleContract "AAPL" "OPT" "20261016" (.text "82"))) :=
  contractKey_eq_iff 0 "U1" _ _
    ⟨by decide +kernel, by decide +kernel, by decide +kernel, by decide +kernel⟩
    ⟨by decide +kernel, by decide +kernel, by decide +kernel, by decide +kernel⟩

/-- Two futures with different expiries share a key, and so do texts with separators in them. -/
theorem not_keysDiffer_futures :
    ¬ KeysDiffer 0 "U1" (sampleContract "ES" "FUT" "20260918" .null)
        (sampleContract "ES" "FUT" "20261218" .null) ∧
      ¬ KeysDiffer 0 "U1" (sampleContract "A|B" "C" "" .null)
        (sampleContract "A" "B|C" "" .null) := by
  constructor
  · intro h
    exact h (by decide) (by decide +kernel)
  · intro h
    exact h (by decide) (by decide +kernel)

end Persistence

import BifrostTrade.Lib.FloatRepr

/-!
# Contract keys

The one text a position or an execution names its contract by (`portfolio/contract_key.py`).
-/

namespace Portfolio

/-- `SYMBOL|SEC|||`, for every row that is not an option. -/
def stkKey (symbol secType : String) : String := symbol ++ "|" ++ secType ++ "|||"

/-- `SYMBOL|OPT|EXPIRY|STRIKE|RIGHT`, the strike as a float prints, or `noneText` without one. -/
def optKey (symbol expiry : String) (strike : Option ℚ) (right noneText : String) : String :=
  symbol ++ "|OPT|" ++ expiry ++ "|" ++ (strike.map fun x => Py.reprFloat (.fin x)).getD noneText ++
    "|" ++ right

example : optKey "AAPL" "20261016" (some (165 / 2)) "C" "None" = "AAPL|OPT|20261016|82.5|C" := by
  decide +kernel

/-! ## Different keys -/

/-- A text without the separator of keys. -/
def NoPipe (s : String) : Prop := '|' ∉ s.toList

instance (s : String) : Decidable (NoPipe s) := inferInstanceAs (Decidable (¬ _))

/-- A strike that is a float: its text reads back as it. -/
def ReadsBack (strike : Option ℚ) : Prop :=
  ∀ x ∈ strike, Py.readFloat (Py.reprFloat (.fin x)) = some (.fin x)

instance (strike : Option ℚ) : Decidable (ReadsBack strike) :=
  inferInstanceAs (Decidable (∀ x ∈ strike, _))

/-- The strike as the key of a position has it. -/
def strikeText (strike : Option ℚ) : String :=
  (strike.map fun x => Py.reprFloat (.fin x)).getD "None"

theorem noPipe_strikeText (strike : Option ℚ) : NoPipe (strikeText strike) := by
  cases strike with
  | none => decide
  | some x => exact Py.pipe_not_mem_reprFloat x

theorem strikeText_inj {strike strike' : Option ℚ} (h : ReadsBack strike) (h' : ReadsBack strike')
    (heq : strikeText strike = strikeText strike') : strike = strike' := by
  cases strike with
  | none =>
    cases strike' with
    | none => rfl
    | some x' => exact absurd heq.symm (Py.reprFloat_ne_none x')
  | some x =>
    cases strike' with
    | none => exact absurd heq (Py.reprFloat_ne_none x)
    | some x' =>
      have hread := h x rfl
      rw [show Py.reprFloat (.fin x) = Py.reprFloat (.fin x') from heq, h' x' rfl] at hread
      rw [Py.Double.fin.inj (Option.some.inj hread)]

theorem toList_stkKey (symbol secType : String) :
    (stkKey symbol secType).toList =
      symbol.toList ++ '|' :: (secType.toList ++ '|' :: ['|', '|']) := by
  simp [stkKey]

theorem toList_optKey (symbol expiry : String) (strike : Option ℚ) (right : String) :
    (optKey symbol expiry strike right "None").toList =
      symbol.toList ++ '|' :: ("OPT".toList ++ '|' :: (expiry.toList ++ '|' ::
        ((strikeText strike).toList ++ '|' :: right.toList))) := by
  simp [optKey, strikeText]

theorem stkKey_inj {symbol symbol' secType secType' : String} (hsymbol : NoPipe symbol)
    (hsymbol' : NoPipe symbol') (hsec : NoPipe secType) (hsec' : NoPipe secType')
    (h : stkKey symbol secType = stkKey symbol' secType') :
    symbol = symbol' ∧ secType = secType' := by
  have hlists := congrArg String.toList h
  rw [toList_stkKey, toList_stkKey] at hlists
  obtain ⟨hs, hrest⟩ := Py.append_separator_inj hsymbol hsymbol' hlists
  obtain ⟨ht, -⟩ := Py.append_separator_inj hsec hsec' hrest
  exact ⟨String.toList_inj.1 hs, String.toList_inj.1 ht⟩

theorem optKey_inj {symbol symbol' expiry expiry' right right' : String} {strike strike' : Option ℚ}
    (hsymbol : NoPipe symbol) (hsymbol' : NoPipe symbol') (hexpiry : NoPipe expiry)
    (hexpiry' : NoPipe expiry') (hstrike : ReadsBack strike) (hstrike' : ReadsBack strike')
    (h : optKey symbol expiry strike right "None" = optKey symbol' expiry' strike' right' "None") :
    symbol = symbol' ∧ expiry = expiry' ∧ strike = strike' ∧ right = right' := by
  have hopt : NoPipe "OPT" := by decide
  have hlists := congrArg String.toList h
  rw [toList_optKey, toList_optKey] at hlists
  obtain ⟨hs, hrest⟩ := Py.append_separator_inj hsymbol hsymbol' hlists
  obtain ⟨-, hrest⟩ := Py.append_separator_inj hopt hopt hrest
  obtain ⟨he, hrest⟩ := Py.append_separator_inj hexpiry hexpiry' hrest
  obtain ⟨hk, hr⟩ := Py.append_separator_inj (noPipe_strikeText strike)
    (noPipe_strikeText strike') hrest
  exact ⟨String.toList_inj.1 hs, String.toList_inj.1 he,
    strikeText_inj hstrike hstrike' (String.toList_inj.1 hk), String.toList_inj.1 hr⟩

/-- The key of an option is that of no other position. -/
theorem optKey_ne_stkKey {symbol symbol' expiry right secType : String} {strike : Option ℚ}
    (hsymbol : NoPipe symbol) (hsymbol' : NoPipe symbol') (hsec : NoPipe secType)
    (hne : secType ≠ "OPT") :
    optKey symbol expiry strike right "None" ≠ stkKey symbol' secType := by
  intro h
  have hopt : NoPipe "OPT" := by decide
  have hlists := congrArg String.toList h
  rw [toList_optKey, toList_stkKey] at hlists
  obtain ⟨-, hrest⟩ := Py.append_separator_inj hsymbol hsymbol' hlists
  obtain ⟨ht, -⟩ := Py.append_separator_inj hopt hsec hrest
  exact hne (String.toList_inj.1 ht).symm

end Portfolio

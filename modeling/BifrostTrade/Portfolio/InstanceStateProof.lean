import BifrostTrade.Portfolio.InstanceState

/-!
# The legs are those of the contracts

A trade's legs are one for each option contract, with the net of its fills in it, and its state is
that of those nets, exactly where the keys of its executions tell the contracts apart
(`stateOfContracts_iff`).  Keys of one form do (`keysNameContracts_of_oneForm`); a contract with a
row keyed by TWS and a row keyed by another source has two (`twsKey_ne_plainKey`).
-/

namespace Portfolio.InstanceState

open Py Persistence
open Snapshot (rightLetter strikeDigits)
open Attribution (trimUpper underlyingSymbolFromRow)

/-! ## The legs of the contracts -/

/-- An option contract by its columns. -/
@[ext]
structure OptionContract where
  underlying : String
  expiry : Option Date
  strike : Option ℚ
  right : String
  deriving DecidableEq

/-- The contract that a row is about, whatever its key. -/
def ExecutionRow.contract (r : ExecutionRow) : OptionContract where
  underlying := underlyingSymbolFromRow r.underlyingSymbol r.symbol
  expiry := parseExpiry r.expiry
  strike := r.strike
  right := rightLetter r.optionRight

/-- The option fills and shares of a trade. -/
def Books.fillsOf (b : Books) (t : ℤ) : List AttributedFill :=
  (b.fills none).filter fun f => f.tradeId = t

/-- The leg of a contract: the net of the fills in it. -/
def contractLeg (newYorkDate : Instant → Date) (fills : List AttributedFill)
    (c : OptionContract) : InstanceLeg :=
  let mine := fills.filter fun f => f.row.contract = c
  { contractKey := optKey c.underlying ((c.expiry.map fun d => dropDashes d.isoformat).getD "")
      c.strike c.right ""
    expiry := c.expiry
    netQty := (mine.map AttributedFill.signedQty).sum
    lastFillOn := (mine.filterMap fun f => f.fillOn newYorkDate).max? }

/-- The contracts of the fills, each once. -/
def contracts (fills : List AttributedFill) : List OptionContract :=
  firstSeen (fills.map fun f => f.row.contract)

/-- One leg for each contract. -/
def contractLegs (newYorkDate : Instant → Date) (fills : List AttributedFill) :
    List InstanceLeg :=
  (contracts fills).map (contractLeg newYorkDate fills)

/-- A leg whatever its key. -/
def InstanceLeg.withoutKey (leg : InstanceLeg) : InstanceLeg := { leg with contractKey := "" }

/-- One leg for each contract of the fills, in any order: it has the key of all fills in the
contract, their net quantity, the expiry and the last day. -/
def LegPerContract (newYorkDate : Instant → Date) (legs : List InstanceLeg)
    (fills : List AttributedFill) : Prop :=
  ∃ legOf : OptionContract → InstanceLeg,
    legs.Perm ((contracts fills).map legOf) ∧
      ∀ f ∈ fills, (legOf f.row.contract).contractKey = f.row.legKey ∧
        (legOf f.row.contract).withoutKey =
          (contractLeg newYorkDate fills f.row.contract).withoutKey

/-- The legs and the state of a trade are those of its contracts, however it is asked for. -/
structure StateOfContracts (newYorkDate : Instant → Date) (b : Books) (t : ℤ) : Prop where
  legs : ∀ tradeIds, isWanted tradeIds t = true →
    LegPerContract newYorkDate (((readInstanceLegs newYorkDate b tradeIds).lookup t).getD [])
      (b.fillsOf t)
  state : ∀ tradeIds today, t ∈ tradeIds →
    (instanceStates newYorkDate b tradeIds today).lookup t =
      some (deriveState (contractLegs newYorkDate (b.fillsOf t)) today)

/-- Two fills have one key exactly where they are in one contract. -/
def KeysNameContracts (fills : List AttributedFill) : Prop :=
  ∀ f ∈ fills, ∀ g ∈ fills, f.row.legKey = g.row.legKey ↔ f.row.contract = g.row.contract

instance (fills : List AttributedFill) : Decidable (KeysNameContracts fills) :=
  inferInstanceAs (Decidable (∀ f ∈ fills, ∀ g ∈ fills, _))

/-! ## One row for each fill -/

/-- The unique indexes on execution ids, and journal rows with ids of their own. -/
structure Books.RecordedOnce (b : Books) : Prop where
  flex : (b.flex.map ExecutionRow.execId).Nodup
  tws : (b.tws.map ExecutionRow.execId).Nodup
  journal : (b.journal.map ExecutionRow.execId).Nodup
  named : ∀ r ∈ b.flex, textOrEmpty r.execId ≠ ""
  apart : ∀ j ∈ b.journal, ∀ r ∈ b.flex ++ b.tws, j.execId ≠ r.execId

/-- A fill that TWS and Flex both recorded is read from one row. -/
theorem executions_nodup {b : Books} (h : b.RecordedOnce) :
    (b.executions.map ExecutionRow.execId).Nodup := by
  have hkept : ∀ t ∈ b.tws.filter (fun t => ¬ ∃ f ∈ b.flex, f.execId = t.execId ∧
      textOrEmpty f.execId ≠ ""), ∀ f ∈ b.flex, f.execId ≠ t.execId := by
    intro t ht f hf heq
    exact of_decide_eq_true (List.mem_filter.1 ht).2 ⟨f, hf, heq, h.named f hf⟩
  rw [Books.executions, List.map_append, List.map_append, List.nodup_append, List.nodup_append]
  refine ⟨⟨h.flex, h.tws.sublist (List.filter_sublist.map _), ?_⟩, h.journal, ?_⟩
  · intro a ha a' ha'
    obtain ⟨f, hf, rfl⟩ := List.mem_map.1 ha
    obtain ⟨t, ht, rfl⟩ := List.mem_map.1 ha'
    exact hkept t ht f hf
  · intro a ha a' ha'
    obtain ⟨j, hj, rfl⟩ := List.mem_map.1 ha'
    rw [← List.map_append] at ha
    obtain ⟨r, hr, rfl⟩ := List.mem_map.1 ha
    refine (h.apart j hj r ?_).symm
    rcases List.mem_append.1 hr with hr | hr
    · exact List.mem_append_left _ hr
    · exact List.mem_append_right _ (List.mem_of_mem_filter hr)

/-! ## What is read for one trade -/

variable {newYorkDate : Instant → Date} {b : Books} {t : ℤ} {tradeIds : Option (List ℤ)}
  {fills : List AttributedFill}

theorem fills_of_trade (h : isWanted tradeIds t = true) :
    ((b.fills tradeIds).filter fun f => f.tradeId = t) = b.fillsOf t := by
  simp only [Books.fillsOf, Books.fills, List.filter_filter]
  refine List.filter_congr fun f _ => ?_
  by_cases ht : f.tradeId = t
  · have hnone : isWanted none t = true := by simp [isWanted]
    simp [ht, h, hnone]
  · simp [ht]

/-- The legs of a trade: its fills by their keys. -/
theorem lookup_readInstanceLegs (h : isWanted tradeIds t = true) :
    ((readInstanceLegs newYorkDate b tradeIds).lookup t).getD [] =
      (groupBy (fun f => f.row.legKey) (b.fillsOf t)).map fun g =>
        instanceLeg newYorkDate g.1 g.2 := by
  have hpair : groupBy (fun f : AttributedFill => (f.tradeId, f.row.legKey)) (b.fillsOf t) =
      (groupBy (fun f => f.row.legKey) (b.fillsOf t)).map fun g => ((t, g.1), g.2) := by
    rw [← groupBy_comp (Prod.mk_right_injective t)]
    refine groupBy_congr fun f hf => ?_
    rw [show f.tradeId = t from of_decide_eq_true (List.mem_filter.1 hf).2]
  have hfilter := groupBy_filter (fun f : AttributedFill => (f.tradeId, f.row.legKey))
    (fun k => decide (k.1 = t)) (b.fills tradeIds)
  rw [fills_of_trade h, hpair] at hfilter
  rw [readInstanceLegs, lookup_map_groupBy Prod.fst fun _ rows => rows.map Prod.snd]
  split_ifs with hin
  · rw [Option.getD_some, List.filter_map, List.map_map]
    simp only [Function.comp_def]
    rw [← hfilter, List.map_map, Function.comp_def]
  · have hnil : ((groupBy (fun f => (f.tradeId, f.row.legKey)) (b.fills tradeIds)).filter
        fun g => decide (g.1.1 = t)) = [] := by
      refine List.filter_eq_nil_iff.2 fun g hg hgt => hin ?_
      rw [List.map_map]
      exact List.mem_map.2 ⟨g, hg, of_decide_eq_true hgt⟩
    rw [← hfilter, List.map_eq_nil_iff] at hnil
    rw [hnil]
    rfl

theorem lookup_instanceStates {tradeIds : List ℤ} (today : Date) (h : t ∈ tradeIds) :
    (instanceStates newYorkDate b tradeIds today).lookup t =
      some (deriveState ((groupBy (fun f => f.row.legKey) (b.fillsOf t)).map fun g =>
        instanceLeg newYorkDate g.1 g.2) today) := by
  have hwanted : isWanted (some tradeIds) t = true := by
    simp [isWanted, h]
  have hkeys := lookup_map_groupBy id
    (fun s (_ : List ℤ) => deriveState (((readInstanceLegs newYorkDate b (some tradeIds)).lookup
      s).getD []) today) tradeIds t
  rw [List.map_id, if_pos h, lookup_readInstanceLegs hwanted] at hkeys
  rw [← hkeys, instanceStates, groupBy, List.map_map, List.map_id]
  rfl

/-! ## The state of legs in any order -/

/-- The keys of the legs do not matter to the state. -/
theorem deriveState_withoutKey (legs : List InstanceLeg) (today : Date) :
    deriveState (legs.map InstanceLeg.withoutKey) today = deriveState legs today := by
  have hopen : (legs.map InstanceLeg.withoutKey).filter InstanceLeg.isOpen =
      (legs.filter InstanceLeg.isOpen).map InstanceLeg.withoutKey := by
    rw [List.filter_map]
    rfl
  simp only [deriveState, hopen, List.map_eq_nil_iff, List.forall_mem_map, List.filterMap_map]
  rfl

theorem max?_eq_of_perm {α : Type*} [LinearOrder α] {l l' : List α} (h : l.Perm l') :
    l.max? = l'.max? := by
  refine Option.ext fun a => ?_
  rw [List.max?_eq_some_iff, List.max?_eq_some_iff, h.mem_iff]
  exact and_congr_right fun _ => forall_congr' fun b => by rw [h.mem_iff]

/-- The database may return the legs in any order. -/
theorem deriveState_of_perm {legs legs' : List InstanceLeg} (h : legs.Perm legs') (today : Date) :
    deriveState legs today = deriveState legs' today := by
  have hopen := h.filter InstanceLeg.isOpen
  have hnil : ∀ {l l' : List InstanceLeg}, l.Perm l' → (l = [] ↔ l' = []) := by
    intro l l' hperm
    rw [← List.length_eq_zero_iff, ← List.length_eq_zero_iff, hperm.length_eq]
  simp only [deriveState, hnil h, hnil hopen, hopen.mem_iff,
    max?_eq_of_perm (h.filterMap InstanceLeg.lastFillOn),
    max?_eq_of_perm (hopen.filterMap InstanceLeg.expiry)]

/-- The state of one leg for each contract is that of the contracts. -/
theorem deriveState_of_legPerContract {legs : List InstanceLeg}
    (h : LegPerContract newYorkDate legs fills) (today : Date) :
    deriveState legs today = deriveState (contractLegs newYorkDate fills) today := by
  obtain ⟨legOf, hperm, hlegs⟩ := h
  rw [deriveState_of_perm hperm, ← deriveState_withoutKey,
    ← deriveState_withoutKey (contractLegs _ _), contractLegs, List.map_map, List.map_map]
  congr 1
  refine List.map_congr_left fun c hc => ?_
  obtain ⟨f, hf, rfl⟩ := List.mem_map.1 (mem_firstSeen.1 hc)
  exact (hlegs f hf).2

/-! ## One leg for each contract -/

/-- The expiries of the fills in a contract read as its expiry, whichever is the least text. -/
theorem parseExpiry_of_contract {mine : List AttributedFill} {c : OptionContract}
    (hne : mine ≠ []) (h : ∀ f ∈ mine, f.row.contract = c) :
    parseExpiry (mine.filterMap fun f => f.row.expiry).min? = c.expiry := by
  have hexpiry : ∀ f ∈ mine, parseExpiry f.row.expiry = c.expiry := fun f hf => by
    rw [← h f hf]
    rfl
  cases hmin : (mine.filterMap fun f => f.row.expiry).min? with
  | none =>
    obtain ⟨f, hf⟩ := List.exists_mem_of_ne_nil mine hne
    have hnone := List.filterMap_eq_nil_iff.1 (List.min?_eq_none_iff.1 hmin) f hf
    rw [← hnone]
    exact hexpiry f hf
  | some text =>
    obtain ⟨f, hf, htext⟩ := List.mem_filterMap.1 (List.min?_mem hmin)
    rw [← htext]
    exact hexpiry f hf

/-- The key of fills that have one. -/
def keyOf (mine : List AttributedFill) : String := (mine.head?.map fun f => f.row.legKey).getD ""

theorem keyOf_eq {mine : List AttributedFill} {f : AttributedFill} (hf : f ∈ mine)
    (h : ∀ g ∈ mine, g.row.legKey = f.row.legKey) : keyOf mine = f.row.legKey := by
  cases mine with
  | nil => cases hf
  | cons g rest =>
    rw [keyOf, List.head?_cons, Option.map_some, Option.getD_some]
    exact h g List.mem_cons_self

/-- The fills of a trade in one contract. -/
def inContract (fills : List AttributedFill) (c : OptionContract) : List AttributedFill :=
  fills.filter fun f => f.row.contract = c

theorem mem_inContract {f : AttributedFill} {c : OptionContract} :
    f ∈ inContract fills c ↔ f ∈ fills ∧ f.row.contract = c := by
  simp [inContract]

/-- Where the keys tell the contracts apart the groups of the keys are those of the contracts. -/
theorem legs_eq_of_keys (h : KeysNameContracts fills) :
    ((groupBy (fun f => f.row.legKey) fills).map fun g => instanceLeg newYorkDate g.1 g.2) =
      (contracts fills).map fun c =>
        instanceLeg newYorkDate (keyOf (inContract fills c)) (inContract fills c) := by
  have hkey : ∀ g ∈ groupBy (fun f => f.row.legKey) fills, g.1 = keyOf g.2 := by
    intro g hg
    obtain ⟨hkey, hmine⟩ := mem_groupBy.1 hg
    obtain ⟨f, hf, hfkey⟩ := List.mem_map.1 hkey
    have hmem : ∀ f', f' ∈ g.2 ↔ f' ∈ fills ∧ f'.row.legKey = g.1 := by
      intro f'
      rw [hmine, List.mem_filter, decide_eq_true_iff]
    rw [keyOf_eq ((hmem f).2 ⟨hf, hfkey⟩) fun f' hf' => ((hmem f').1 hf').2.trans hfkey.symm, hfkey]
  calc (groupBy (fun f => f.row.legKey) fills).map (fun g => instanceLeg newYorkDate g.1 g.2)
      = (groupBy (fun f => f.row.legKey) fills).map fun g =>
          instanceLeg newYorkDate (keyOf g.2) g.2 :=
        List.map_congr_left fun g hg => by rw [← hkey g hg]
    _ = ((groupBy (fun f => f.row.legKey) fills).map Prod.snd).map fun mine =>
          instanceLeg newYorkDate (keyOf mine) mine := by
        rw [List.map_map, Function.comp_def]
    _ = ((groupBy (fun f => f.row.contract) fills).map Prod.snd).map fun mine =>
          instanceLeg newYorkDate (keyOf mine) mine := by rw [map_snd_groupBy_congr h]
    _ = (contracts fills).map fun c =>
          instanceLeg newYorkDate (keyOf (inContract fills c)) (inContract fills c) := by
        simp only [groupBy, contracts, inContract, List.map_map, Function.comp_def]

theorem legPerContract_of_keys (h : KeysNameContracts fills) :
    LegPerContract newYorkDate
      ((groupBy (fun f => f.row.legKey) fills).map fun g => instanceLeg newYorkDate g.1 g.2)
      fills := by
  refine ⟨_, .of_eq (legs_eq_of_keys h), fun f hf => ?_⟩
  have hmem : f ∈ inContract fills f.row.contract := mem_inContract.2 ⟨hf, rfl⟩
  constructor
  · apply keyOf_eq hmem
    intro g hg
    exact (h g (mem_inContract.1 hg).1 f hf).2 (mem_inContract.1 hg).2
  · have hexpiry := parseExpiry_of_contract (List.ne_nil_of_mem hmem)
      fun g hg => (mem_inContract.1 hg).2
    simp only [InstanceLeg.withoutKey, instanceLeg, contractLeg, hexpiry]
    rfl

/-- One leg for each contract has one key for each. -/
theorem keys_of_legPerContract
    (h : LegPerContract newYorkDate
      ((groupBy (fun f => f.row.legKey) fills).map fun g => instanceLeg newYorkDate g.1 g.2)
      fills) :
    KeysNameContracts fills := by
  obtain ⟨legOf, hperm, hlegs⟩ := h
  have hkeys : (((contracts fills).map legOf).map InstanceLeg.contractKey).Nodup := by
    rw [← (hperm.map InstanceLeg.contractKey).nodup_iff, List.map_map, groupBy, List.map_map]
    simpa [Function.comp_def, instanceLeg] using firstSeen_nodup (fills.map fun f => f.row.legKey)
  rw [List.map_map] at hkeys
  intro f hf g hg
  have hcontract : ∀ f ∈ fills, f.row.contract ∈ contracts fills := fun f hf =>
    mem_firstSeen.2 (List.mem_map_of_mem hf)
  constructor
  · intro heq
    refine List.inj_on_of_nodup_map hkeys (hcontract f hf) (hcontract g hg) ?_
    rw [Function.comp_apply, Function.comp_apply, (hlegs f hf).1, (hlegs g hg).1, heq]
  · intro heq
    rw [← (hlegs f hf).1, ← (hlegs g hg).1, heq]

/-- A trade's legs are those of its contracts, and its state is theirs, exactly where two of its
fills have one key when they are in one contract, and only then. -/
theorem stateOfContracts_iff (newYorkDate : Instant → Date) (b : Books) (t : ℤ) :
    StateOfContracts newYorkDate b t ↔ KeysNameContracts (b.fillsOf t) := by
  constructor
  · intro h
    have hlegs := h.legs none rfl
    rw [lookup_readInstanceLegs rfl] at hlegs
    exact keys_of_legPerContract hlegs
  · intro h
    have hlegs := @legPerContract_of_keys newYorkDate _ h
    refine ⟨fun tradeIds hwanted => ?_, fun tradeIds today ht => ?_⟩
    · rw [lookup_readInstanceLegs hwanted]
      exact hlegs
    · rw [lookup_instanceStates today ht, deriveState_of_legPerContract hlegs]

/-- A sale that Flex has, under the plain key. -/
def soldInFlex : ExecutionRow where
  accountId := some "U1"
  execId := some "0001"
  symbol := some "ZZZQ"
  underlyingSymbol := some "ZZZQ"
  secType := some "OPT"
  side := some "SELL"
  quantity := some 1
  source := some "flex_trades"
  expiry := some "20261016"
  strike := some 80
  optionRight := some "P"
  contractKey := some "ZZZQ|OPT|20261016|80.0|P"
  tradeDate := Date.ofYmd 2026 9 1
  execTime := none

/-- The purchase that closes it, from the gateway. -/
def boughtByTws : ExecutionRow where
  accountId := some "U1"
  execId := some "0002"
  symbol := some "ZZZQ"
  underlyingSymbol := none
  secType := some "OPT"
  side := some "BOT"
  quantity := some 1
  source := some "tws_client"
  expiry := some "20261016"
  strike := some 80
  optionRight := some "P"
  contractKey := none
  tradeDate := Date.ofYmd 2026 10 1
  execTime := none

/-- The two of them as written, both attributed to one trade. -/
def mixedBooks : Books where
  flex := [soldInFlex.keyed soldInFlex.writtenKey]
  tws := [boughtByTws.keyed boughtByTws.writtenKey]
  journal := []
  tradeExecution := [⟨"U1", "0001", 7, none⟩, ⟨"U1", "0002", 7, none⟩]

/-- A trade that is closed reads open, with a leg of each key. -/
theorem closed_trade_reads_open :
    let today := (Date.ofYmd 2026 10 3).getD Date.epoch
    (readInstanceLegs (fun _ => Date.epoch) mixedBooks none).map
        (fun x => (x.1, x.2.map fun leg => (leg.contractKey, leg.netQty))) =
      [(7, [("ZZZQ|OPT|20261016|80.0|P", -1),
        ("ZZZQ  261016P00080000|OPT|20261016|80.0|P", 1)])] ∧
      (instanceStates (fun _ => Date.epoch) mixedBooks [7] today).lookup 7 =
        some (.open, none) ∧
      deriveState (contractLegs (fun _ => Date.epoch) (mixedBooks.fillsOf 7)) today =
        (.closed, Date.ofYmd 2026 10 1) ∧
      ¬ StateOfContracts (fun _ => Date.epoch) mixedBooks 7 := by
  have hstate : (instanceStates (fun _ => Date.epoch) mixedBooks [7]
      ((Date.ofYmd 2026 10 3).getD Date.epoch)).lookup 7 = some (.open, none) := by
    decide +kernel
  have htrue : deriveState (contractLegs (fun _ => Date.epoch) (mixedBooks.fillsOf 7))
      ((Date.ofYmd 2026 10 3).getD Date.epoch) = (.closed, Date.ofYmd 2026 10 1) := by
    decide +kernel
  refine ⟨by decide +kernel, hstate, htrue, fun h => ?_⟩
  have hsame := h.state [7] ((Date.ofYmd 2026 10 3).getD Date.epoch) List.mem_cons_self
  rw [hstate, htrue] at hsame
  exact absurd (congrArg Prod.fst (Option.some.inj hsame)) (by decide)

/-! ## The two forms of a key -/

/-- A local symbol is the symbol and a tail that is the same for every symbol. -/
theorem of_legacyTwsLocalSymbol {symKey expKey rightKey localSymbol : String} {k : ℚ}
    (h : legacyTwsLocalSymbol symKey expKey k rightKey = some localSymbol) :
    ∃ tail : List Char, (∀ symKey' localSymbol',
        legacyTwsLocalSymbol symKey' expKey k rightKey = some localSymbol' →
          localSymbol'.toList = symKey'.toList ++ ' ' :: ' ' :: tail) ∧
      localSymbol.toList = symKey.toList ++ ' ' :: ' ' :: tail ∧
      (NoPipe rightKey → '|' ∉ tail) := by
  simp only [legacyTwsLocalSymbol] at h ⊢
  set yymmdd := if 8 ≤ (expKey.toList.filter isDigit).length
    then ((expKey.toList.filter isDigit).take 8).drop 2
    else (expKey.toList.filter isDigit).drop ((expKey.toList.filter isDigit).length - 6) with hday
  by_cases hempty : yymmdd = []
  · rw [if_pos hempty] at h
    cases h
  rw [if_neg hempty] at h
  obtain rfl := Option.some.inj h
  refine ⟨yymmdd ++ rightKey.toList ++ (strikeDigits (Py.round (k * 1000))).toList, ?_, ?_, ?_⟩
  · intro symKey' localSymbol' h'
    rw [if_neg hempty] at h'
    obtain rfl := Option.some.inj h'
    simp
  · simp
  · intro hright hmem
    have hdigits : ∀ c ∈ yymmdd, isDigit c = true := by
      intro c hc
      rw [hday] at hc
      split_ifs at hc
      · exact (List.mem_filter.1 (List.mem_of_mem_take (List.mem_of_mem_drop hc))).2
      · exact (List.mem_filter.1 (List.mem_of_mem_drop hc)).2
    rcases List.mem_append.1 hmem with hmem | hmem
    · rcases List.mem_append.1 hmem with hmem | hmem
      · exact absurd (hdigits _ hmem) (by decide)
      · exact hright hmem
    · rw [strikeDigits, String.toList_ofList] at hmem
      have hnat : ∀ width n : ℕ, '|' ∉ natText width n := fun width n hc =>
        absurd (isDigit_of_mem_natText hc) (by decide)
      split_ifs at hmem
      · rcases List.mem_cons.1 hmem with heq | hmem
        · exact absurd heq (by decide)
        · exact hnat _ _ hmem
      · exact hnat _ _ hmem

theorem of_twsKey {r : ExecutionRow} {key : String} (h : r.twsKey = some key) :
    ∃ k localSymbol, r.optFields.strikeKey = some k ∧
      legacyTwsLocalSymbol r.optFields.symKey r.optFields.expKey k r.optFields.rightKey =
        some localSymbol ∧
      key = optKey localSymbol r.optFields.expKey (some k) r.optFields.rightKey "" := by
  have hkey : r.optFields.twsKey = some key := h
  rw [OptFields.twsKey] at hkey
  split_ifs at hkey
  obtain ⟨k, hk, hkey⟩ := Option.bind_eq_some_iff.1 hkey
  obtain ⟨localSymbol, hlocal, rfl⟩ := Option.map_eq_some_iff.1 hkey
  exact ⟨k, localSymbol, hk, hlocal, rfl⟩

/-- The key of TWS is longer than the plain key of the same parts: a contract with a row of each
has two keys. -/
theorem twsKey_ne_plainKey {r r' : ExecutionRow} {key : String} (h : r.twsKey = some key)
    (hfields : r.optFields = r'.optFields) : key ≠ r'.plainKey := by
  obtain ⟨k, localSymbol, hk, hlocal, rfl⟩ := of_twsKey h
  obtain ⟨tail, -, htail, -⟩ := of_legacyTwsLocalSymbol hlocal
  rw [ExecutionRow.plainKey, ← hfields, hk]
  intro heq
  have hlength := congrArg (fun s : String => s.toList.length) heq
  simp only [optKey, String.toList_append, List.length_append, htail, List.length_cons] at hlength
  omega

/-- An option row without a key is stored by the daemon under one of the two. -/
theorem sinkKey_forms {r : ExecutionRow} (hopt : upper (strip (textOrEmpty r.secType)) = "OPT")
    (hkey : textOrEmpty r.contractKey = "") (hsym : r.optFields.symKey ≠ "") :
    r.sinkKey = r.twsKey ∧ r.twsKey.isSome ∨ r.sinkKey = some r.plainKey := by
  by_cases hwritten : textOrEmpty r.writtenKey = ""
  · right
    rw [ExecutionRow.sinkKey, if_pos ⟨hopt, hwritten, hsym⟩]
  · left
    rw [ExecutionRow.sinkKey, if_neg fun h => hwritten h.2.1]
    have hcopy : r.writtenKey ≠ r.contractKey := fun heq => hwritten (heq ▸ hkey)
    unfold ExecutionRow.writtenKey at hcopy ⊢
    split_ifs at hcopy ⊢ with hsource
    · cases htws : r.twsKey with
      | none => simp [htws] at hcopy
      | some key => exact ⟨rfl, rfl⟩
    · exact absurd rfl hcopy

/-! ## Keys of one form -/

/-- The parts of a row, as the writers spell them, name its contract. -/
structure ExecutionRow.SpellsContract (r : ExecutionRow) : Prop where
  underlying : r.optFields.symKey = r.contract.underlying
  expiry : ∃ d : Date, r.contract.expiry = some d ∧ r.optFields.expKey = dropDashes d.isoformat
  strike : ∃ k, r.contract.strike = some k ∧ ReadsBack (some k)
  noPipe : NoPipe r.optFields.symKey ∧ NoPipe r.contract.right
  oneBlank : ¬ [' ', ' '] <:+: r.optFields.symKey.toList

/-- The row is grouped by its TWS key. -/
def ExecutionRow.TwsKeyed (r : ExecutionRow) : Prop := r.twsKey = some r.legKey

/-- The row is grouped by its plain key. -/
def ExecutionRow.PlainKeyed (r : ExecutionRow) : Prop := r.legKey = r.plainKey

/-- A right is cut to its first letter whatever it is. -/
theorem rightKey_optFields (r : ExecutionRow) : r.optFields.rightKey = r.contract.right := by
  simp only [ExecutionRow.optFields, executionOptFields, ExecutionRow.contract, rightLetter]
  generalize upper (strip (textOrEmpty r.optionRight)) = right
  obtain ⟨cs, rfl⟩ : ∃ cs, right = String.ofList cs := ⟨right.toList, by simp⟩
  rw [String.toList_ofList]
  match cs with
  | [] => rfl
  | [c] => rfl
  | c :: c' :: rest =>
    rw [if_pos (by simp)]
    by_cases hc : c = 'C'
    · subst hc
      rfl
    by_cases hp : c = 'P'
    · subst hp
      rfl
    · simp [hc, hp]

theorem digit_ne_separator (n : ℕ) : Date.digit n ≠ '-' ∧ Date.digit n ≠ '|' := by
  have h : ∀ i : Fin 10, Date.digit i ≠ '-' ∧ Date.digit i ≠ '|' := by decide
  simpa [Date.digit] using h ⟨n % 10, Nat.mod_lt _ (by decide)⟩

theorem toList_compact (d : Date) : (dropDashes d.isoformat).toList =
    [Date.digit (d.year / 1000), Date.digit (d.year / 100), Date.digit (d.year / 10),
      Date.digit d.year, Date.digit (d.month / 10), Date.digit d.month, Date.digit (d.day / 10),
      Date.digit d.day] := by
  simp [dropDashes, Date.isoformat, Date.isoChars, (digit_ne_separator _).1]

theorem noPipe_compact (d : Date) : NoPipe (dropDashes d.isoformat) := by
  rw [NoPipe, toList_compact]
  simp [Ne.symm (digit_ne_separator _).2]

theorem compact_inj {d d' : Date} (h : dropDashes d.isoformat = dropDashes d'.isoformat) :
    d = d' := by
  have hlists := congrArg String.toList h
  rw [toList_compact, toList_compact] at hlists
  simp only [List.cons.injEq, and_true] at hlists
  apply Date.isoformat_strictMono.injective
  simp only [Date.isoformat, Date.isoChars, hlists]

variable {r r' : ExecutionRow}

/-- The parts are those of the contract. -/
theorem optFields_eq_iff (h : r.SpellsContract) (h' : r'.SpellsContract) :
    r.optFields = r'.optFields ↔ r.contract = r'.contract := by
  obtain ⟨d, hd, hexp⟩ := h.expiry
  obtain ⟨d', hd', hexp'⟩ := h'.expiry
  constructor
  · intro heq
    rw [heq, hexp'] at hexp
    refine OptionContract.ext ?_ ?_ (congrArg OptFields.strikeKey heq) ?_
    · rw [← h.underlying, ← h'.underlying, heq]
    · rw [hd, hd', compact_inj hexp]
    · rw [← rightKey_optFields, ← rightKey_optFields, heq]
  · intro heq
    rw [heq, hd'] at hd
    obtain rfl := Option.some.inj hd
    refine OptFields.ext ?_ (hexp.trans hexp'.symm) (congrArg OptionContract.strike heq) ?_
    · rw [h.underlying, h'.underlying, heq]
    · rw [rightKey_optFields, rightKey_optFields, heq]

theorem noPipe_localSymbol {symKey expKey rightKey localSymbol : String} {k : ℚ}
    (hsym : NoPipe symKey) (hright : NoPipe rightKey)
    (h : legacyTwsLocalSymbol symKey expKey k rightKey = some localSymbol) :
    NoPipe localSymbol := by
  obtain ⟨tail, -, htail, hnoPipe⟩ := of_legacyTwsLocalSymbol h
  rw [NoPipe, htail]
  simp only [List.mem_append, List.mem_cons, not_or]
  exact ⟨hsym, by decide, by decide, hnoPipe hright⟩

/-- A key with a slot for the symbol and the other parts of a row. -/
def ExecutionRow.slotKey (r : ExecutionRow) (slot : String) : String :=
  optKey slot r.optFields.expKey r.optFields.strikeKey r.optFields.rightKey ""

theorem plainKey_eq_slotKey (r : ExecutionRow) : r.plainKey = r.slotKey r.optFields.symKey := rfl

/-- Equal keys have equal slots and equal parts. -/
theorem slotKey_inj (h : r.SpellsContract) (h' : r'.SpellsContract) {slot slot' : String}
    (hslot : NoPipe slot) (hslot' : NoPipe slot') (heq : r.slotKey slot = r'.slotKey slot') :
    slot = slot' ∧ r.optFields.expKey = r'.optFields.expKey ∧
      r.optFields.strikeKey = r'.optFields.strikeKey ∧
      r.optFields.rightKey = r'.optFields.rightKey := by
  obtain ⟨d, -, hexp⟩ := h.expiry
  obtain ⟨d', -, hexp'⟩ := h'.expiry
  obtain ⟨k, hk, hreads⟩ := h.strike
  obtain ⟨k', hk', hreads'⟩ := h'.strike
  have hstrike : r.optFields.strikeKey = some k := hk
  have hstrike' : r'.optFields.strikeKey = some k' := hk'
  rw [ExecutionRow.slotKey, ExecutionRow.slotKey, hstrike, hstrike'] at heq
  rw [hstrike, hstrike']
  -- what stands for a missing strike does not matter where there is one
  exact optKey_inj hslot hslot' (hexp ▸ noPipe_compact d) (hexp' ▸ noPipe_compact d') hreads
    hreads' heq

/-- A key of TWS has the local symbol in its slot. -/
theorem TwsKeyed.slot (h : r.SpellsContract) (hkey : r.TwsKeyed) :
    ∃ k localSymbol, r.optFields.strikeKey = some k ∧
      legacyTwsLocalSymbol r.optFields.symKey r.optFields.expKey k r.optFields.rightKey =
        some localSymbol ∧
      NoPipe localSymbol ∧ r.legKey = r.slotKey localSymbol := by
  obtain ⟨k, localSymbol, hk, hlocal, heq⟩ := of_twsKey hkey
  have hright : NoPipe r.optFields.rightKey := rightKey_optFields r ▸ h.noPipe.2
  refine ⟨k, localSymbol, hk, hlocal, noPipe_localSymbol h.noPipe.1 hright hlocal, ?_⟩
  rw [heq, ExecutionRow.slotKey, hk]

theorem optFields_eq_of_twsKeyed (h : r.SpellsContract) (h' : r'.SpellsContract)
    (hkey : r.TwsKeyed) (hkey' : r'.TwsKeyed) (heq : r.legKey = r'.legKey) :
    r.optFields = r'.optFields := by
  obtain ⟨k, localSymbol, hk, hlocal, hnoPipe, hslot⟩ := TwsKeyed.slot h hkey
  obtain ⟨k', localSymbol', hk', hlocal', hnoPipe', hslot'⟩ := TwsKeyed.slot h' hkey'
  rw [hslot, hslot'] at heq
  obtain ⟨rfl, hexp, hstrike, hright⟩ := slotKey_inj h h' hnoPipe hnoPipe' heq
  have hkk : k = k' := by
    rw [hk, hk'] at hstrike
    exact Option.some.inj hstrike
  rw [← hexp, ← hkk, ← hright] at hlocal'
  obtain ⟨tail, htail, hlist, -⟩ := of_legacyTwsLocalSymbol hlocal
  have hsym := hlist.symm.trans (htail _ _ hlocal')
  exact OptFields.ext (String.toList_inj.1 (List.append_cancel_right hsym)) hexp hstrike hright

/-- A key of TWS is no plain key of a symbol without two blanks in a row. -/
theorem legKey_ne_of_forms (h : r.SpellsContract) (h' : r'.SpellsContract) (hkey : r.TwsKeyed)
    (hkey' : r'.PlainKeyed) : r.legKey ≠ r'.legKey := by
  intro heq
  obtain ⟨k, localSymbol, hk, hlocal, hnoPipe, hslot⟩ := TwsKeyed.slot h hkey
  rw [hslot, hkey', plainKey_eq_slotKey] at heq
  obtain ⟨rfl, -⟩ := slotKey_inj h h' hnoPipe h'.noPipe.1 heq
  obtain ⟨tail, -, hlist, -⟩ := of_legacyTwsLocalSymbol hlocal
  apply h'.oneBlank
  rw [hlist]
  exact ⟨r.optFields.symKey.toList, tail, by simp⟩

theorem twsKey_congr (h : r.optFields = r'.optFields) : r.twsKey = r'.twsKey := by
  show r.optFields.twsKey = r'.optFields.twsKey
  rw [h]

theorem plainKey_congr (h : r.optFields = r'.optFields) : r.plainKey = r'.plainKey := by
  unfold ExecutionRow.plainKey
  rw [h]

/-- Where the rows spell their contracts and have the keys of their writers, the keys tell the
contracts apart exactly when the rows of a contract are all keyed by TWS or none of them is. -/
theorem keysNameContracts_iff_oneForm
    (h : ∀ f ∈ fills, f.row.SpellsContract ∧ (f.row.TwsKeyed ∨ f.row.PlainKeyed)) :
    KeysNameContracts fills ↔
      ∀ f ∈ fills, ∀ g ∈ fills, f.row.contract = g.row.contract →
        (f.row.TwsKeyed ↔ g.row.TwsKeyed) := by
  have hplain : ∀ f ∈ fills, ¬ f.row.TwsKeyed → f.row.PlainKeyed := fun f hf hnot =>
    (h f hf).2.resolve_left hnot
  constructor
  · intro hkeys f hf g hg hcontract
    have hsame : ∀ f ∈ fills, ∀ g ∈ fills, f.row.contract = g.row.contract → f.row.TwsKeyed →
        g.row.TwsKeyed := by
      intro f hf g hg hcontract htws
      by_contra hnot
      have hfields := (optFields_eq_iff (h f hf).1 (h g hg).1).2 hcontract
      apply twsKey_ne_plainKey htws hfields
      rw [(hkeys f hf g hg).2 hcontract, hplain g hg hnot]
    exact ⟨hsame f hf g hg hcontract, hsame g hg f hf hcontract.symm⟩
  · intro hform f hf g hg
    constructor
    · intro heq
      apply (optFields_eq_iff (h f hf).1 (h g hg).1).1
      rcases (h f hf).2 with htws | hpl <;> rcases (h g hg).2 with htws' | hpl'
      · exact optFields_eq_of_twsKeyed (h f hf).1 (h g hg).1 htws htws' heq
      · exact absurd heq (legKey_ne_of_forms (h f hf).1 (h g hg).1 htws hpl')
      · exact absurd heq.symm (legKey_ne_of_forms (h g hg).1 (h f hf).1 htws' hpl)
      · rw [hpl, hpl'] at heq
        obtain ⟨hsym, hexp, hstrike, hright⟩ := slotKey_inj (h f hf).1 (h g hg).1
          (h f hf).1.noPipe.1 (h g hg).1.noPipe.1 heq
        exact OptFields.ext hsym hexp hstrike hright
    · intro hcontract
      have hfields := (optFields_eq_iff (h f hf).1 (h g hg).1).2 hcontract
      by_cases htws : f.row.TwsKeyed
      · have htws' := (hform f hf g hg hcontract).1 htws
        exact Option.some.inj (htws.symm.trans ((twsKey_congr hfields).trans htws'))
      · have htws' : ¬ g.row.TwsKeyed := fun h' => htws ((hform f hf g hg hcontract).2 h')
        rw [hplain f hf htws, hplain g hg htws', plainKey_congr hfields]

end Portfolio.InstanceState

import BifrostTrade.Portfolio.CursorText

/-!
# Which cursor texts are issued

A token is refused or is the encoding of the key it gives, exactly when base64, JSON and the ISO
texts are each spelled as the encoder spells them.  A key is read back exactly when its offset is
none, zero or at least a second (`cursorTokens_iff`).
-/

namespace Portfolio.CursorText

open Py Py.Json Py.Octets
open Py.Iso (codes)

/-! ## The conditions -/

/-- The offset of the time is zero or at least a second. -/
def KeepsOffset (t : DateTime) : Prop := ∀ o ∈ t.offset, o = 0 ∨ 1000000 ≤ o.natAbs

/-- A missing value, or the text of a date. -/
def DateReadable (v : Option Json.Value) : Prop :=
  v = none ∨ v = some .null ∨
    ∃ points, v = some (.text points) ∧ (Iso.dateFromIso points).isSome

/-- The text of a time with an offset. -/
def TimeReadable (v : Option Json.Value) : Prop :=
  ∃ points t, v = some (.text points) ∧ Iso.datetimeFromIso points = some t ∧ t.offset.isSome

/-- The fields of a cursor of the kind. -/
def Kind.fields : Kind → List String
  | executions => executionFields
  | transactions => transactionFields

/-- The date and the time of a body can be read. -/
def FieldsReadable : Kind → Body → Prop
  | .executions, body =>
      DateReadable (get body "d") ∧
        (get body "t" = none ∨ get body "t" = some .null ∨ TimeReadable (get body "t"))
  | .transactions, body => TimeReadable (get body "t")

/-- The body has the version, the kind and the fields, each of its type. -/
structure Admissible (kind : Kind) (body : Body) : Prop where
  version : isVersion (get body "v") = true
  kind_eq : isText kind.name (get body "k") = true
  fields : HasFields body kind.fields
  readable : FieldsReadable kind body
  id : ∃ n, get body "i" = some (.int n)

/-- The members of a body that is written. -/
def written (kind : Kind) (fields : List (String × Scalar)) : List (String × Scalar) :=
  [("v", .int 1), ("k", .text kind.name)] ++ fields

/-- The body of what was written. -/
def writtenBody (kind : Kind) (fields : List (String × Scalar)) : Body :=
  (sortKeys (written kind fields)).map memberValue

/-- The text is what `json.dumps` writes of an object with the version, the kind and scalars. -/
def WrittenByDumps (kind : Kind) (text : List Char) : Prop :=
  ∃ fields : List (String × Scalar),
    fields.map Prod.fst = kind.fields ∧ text = dumpsObject (written kind fields)

/-- The texts of the date and the time are ISO forms. -/
def IsoSpelled (body : Body) : Prop :=
  (∀ points, get body "d" = some (.text points) → ∃ d : Date, points = codes d.isoChars) ∧
    ∀ points, get body "t" = some (.text points) →
      ∃ t : DateTime, points = codes t.isoChars ∧ KeepsOffset t

/-- Where the token is read as an admissible body, each layer is spelled as the encoder spells
it. -/
def SpelledAsWritten (kind : Kind) (token : String) : Prop :=
  let chars := (strip token).toList
  ∀ bytes text body, chars.length ≤ maxTokenLen →
    b64decode (chars ++ padding chars) = some bytes → utf8Decode bytes = some text →
    loads text = some (.object body) → Admissible kind body →
      chars = b64encode (codes text) ∧ WrittenByDumps kind text ∧ IsoSpelled body

/-! ## Tokens -/

theorem loads_nil : loads [] = none := rfl

/-- A body is decoded where every stage reads the token. -/
theorem decodeBody_eq_ok_iff {token : String} {kind : Kind} {body : Body} :
    decodeBody token kind = .ok body ↔
      (strip token).toList.length ≤ maxTokenLen ∧
      (∃ bytes text, b64decode ((strip token).toList ++ padding (strip token).toList) = some bytes ∧
        utf8Decode bytes = some text ∧ loads text = some (.object body)) ∧
      isVersion (get body "v") = true ∧ isText kind.name (get body "k") = true := by
  unfold decodeBody
  dsimp only
  generalize (strip token).toList = chars
  constructor
  · intro h
    split_ifs at h with hempty hlong
    split at h
    · rename_i body' hread
      split_ifs at h with hversion hkind
      obtain rfl := Except.ok.inj h
      obtain ⟨bytes, hbytes, hread⟩ := Option.bind_eq_some_iff.1 hread
      obtain ⟨text, htext, hloads⟩ := Option.bind_eq_some_iff.1 hread
      exact ⟨not_lt.1 hlong, ⟨bytes, text, hbytes, htext, hloads⟩, by simpa using hversion,
        by simpa using hkind⟩
    · cases h
  · rintro ⟨hlength, ⟨bytes, text, hbytes, htext, hloads⟩, hversion, hkind⟩
    have hne : chars ≠ [] := by
      rintro rfl
      obtain rfl := Option.some.inj hbytes
      obtain rfl := Option.some.inj htext
      exact Option.some_ne_none _ (hloads.symm.trans loads_nil)
    rw [if_neg hne, if_neg (not_lt.2 hlength), hbytes, Option.bind_some, htext, Option.bind_some,
      hloads]
    dsimp only
    rw [if_neg (by simp [hversion]), if_neg (by simp [hkind])]

theorem length_le_b64encode (bytes : List ℕ) : bytes.length ≤ (b64encode bytes).length := by
  rw [b64encode, List.length_map]
  fun_induction sextets bytes with
  | case1 a b c rest ih =>
    simp only [List.length_cons]
    omega
  | case2 => simp
  | case3 => simp
  | case4 => simp

theorem isSpace_sextetChar (v : ℕ) : isSpace (sextetChar v) = false := by
  by_cases hv : v < 64
  · have hall : ∀ v : Fin 64, isSpace (sextetChar v) = false := by decide
    exact hall ⟨v, hv⟩
  · rw [sextetChar, if_neg (by omega), if_neg (by omega), if_neg (by omega), if_neg (by omega)]
    decide

theorem strip_encode (kind : Kind) (fields : List (String × Scalar)) :
    strip (encode kind fields) = encode kind fields := by
  refine strip_of_forall fun c hc => ?_
  rw [encode, String.toList_ofList] at hc
  obtain ⟨v, -, rfl⟩ := List.mem_map.1 hc
  exact isSpace_sextetChar v

theorem toList_encode (kind : Kind) (fields : List (String × Scalar)) :
    (encode kind fields).toList = b64encode (codes (dumpsObject (written kind fields))) :=
  String.toList_ofList

/-- What was encoded is decoded to its text. -/
theorem decode_text (members : List (String × Scalar)) :
    b64decode (b64encode (codes (dumpsObject members)) ++
        padding (b64encode (codes (dumpsObject members)))) = some (codes (dumpsObject members)) ∧
      utf8Decode (codes (dumpsObject members)) = some (dumpsObject members) := by
  have hascii := ascii_dumpsInOrder (sortKeys members)
  refine ⟨b64decode_b64encode fun b hb => ?_, utf8Decode_ascii hascii⟩
  obtain ⟨c, hc, rfl⟩ := List.mem_map.1 hb
  have hlt := hascii c hc
  omega

/-- A text that is short enough is read as the members that were written. -/
theorem loads_written {kind : Kind} {fields : List (String × Scalar)}
    (hnames : fields.map Prod.fst = kind.fields)
    (hlength : (dumpsObject (written kind fields)).length ≤ maxTokenLen) :
    loads (dumpsObject (written kind fields)) = some (.object (writtenBody kind fields)) := by
  have hkeys : ((written kind fields).map Prod.fst).Nodup := by
    rw [written, List.map_append, hnames]
    cases kind <;> decide
  have hperm : (sortKeys (written kind fields)).Perm (written kind fields) :=
    List.perm_insertionSort _ _
  have hnodup : ((sortKeys (written kind fields)).map Prod.fst).Nodup :=
    (hperm.map Prod.fst).nodup_iff.2 hkeys
  exact loads_dumpsInOrder (fits_of_length (hlength.trans (by decide))) hnodup

/-! ## Lists with cursors -/

/-- How a list writes a key and reads it back, and what the reader makes of a body. -/
structure CursorList (κ : Type) where
  kind : Kind
  payload : κ → List (String × Scalar)
  read : Body → Except InvalidCursor κ
  names : ∀ key, (payload key).map Prod.fst = kind.fields
  head : ∀ fields : List (String × Scalar), fields.map Prod.fst = kind.fields →
    isVersion (get (writtenBody kind fields) "v") = true ∧
      isText kind.name (get (writtenBody kind fields) "k") = true
  read_ok : ∀ body, (∃ key, read body = .ok key) ↔
    HasFields body kind.fields ∧ FieldsReadable kind body ∧ ∃ n, get body "i" = some (.int n)
  spelled : ∀ key (fields : List (String × Scalar)), fields.map Prod.fst = kind.fields →
    read (writtenBody kind fields) = .ok key →
      (IsoSpelled (writtenBody kind fields) ↔ fields = payload key)

namespace CursorList

variable {κ : Type} (L : CursorList κ)

/-- The token of a key. -/
def encode (key : κ) : String := CursorText.encode L.kind (L.payload key)

/-- The key of a token. -/
def decode (token : String) : Except InvalidCursor κ := (decodeBody token L.kind).bind L.read

theorem decode_eq_ok_iff {token : String} {key : κ} :
    L.decode token = .ok key ↔
      ∃ body, decodeBody token L.kind = .ok body ∧ L.read body = .ok key := by
  unfold decode
  cases hbody : decodeBody token L.kind with
  | error e => simp [Except.bind]
  | ok body => simp [Except.bind]

/-- A token that is accepted is admissible at every stage. -/
theorem exists_key_iff {token : String} :
    (∃ key, L.decode token = .ok key) ↔
      (strip token).toList.length ≤ maxTokenLen ∧ ∃ bytes text body,
        b64decode ((strip token).toList ++ padding (strip token).toList) = some bytes ∧
        utf8Decode bytes = some text ∧ loads text = some (.object body) ∧
        Admissible L.kind body := by
  simp only [L.decode_eq_ok_iff, decodeBody_eq_ok_iff]
  constructor
  · rintro ⟨key, body, ⟨hlength, ⟨bytes, text, hbytes, htext, hloads⟩, hversion, hkind⟩, hread⟩
    obtain ⟨hfields, hreadable, hid⟩ := (L.read_ok body).1 ⟨key, hread⟩
    exact ⟨hlength, bytes, text, body, hbytes, htext, hloads,
      hversion, hkind, hfields, hreadable, hid⟩
  · rintro ⟨hlength, bytes, text, body, hbytes, htext, hloads, hadm⟩
    obtain ⟨key, hread⟩ := (L.read_ok body).2 ⟨hadm.fields, hadm.readable, hadm.id⟩
    exact ⟨key, body, ⟨hlength, ⟨bytes, text, hbytes, htext, hloads⟩, hadm.version, hadm.kind_eq⟩,
      hread⟩

/-- The encoding of a key that fits is read as the body that was written. -/
theorem decodeBody_encode {key : κ} (hfits : (L.encode key).length ≤ maxTokenLen) :
    decodeBody (L.encode key) L.kind = .ok (writtenBody L.kind (L.payload key)) := by
  obtain ⟨hbytes, htext⟩ := decode_text (written L.kind (L.payload key))
  have hstrip : strip (L.encode key) = L.encode key := strip_encode _ _
  have hlist : (L.encode key).toList =
      b64encode (codes (dumpsObject (written L.kind (L.payload key)))) := toList_encode _ _
  have hlength : (L.encode key).toList.length ≤ maxTokenLen := by
    rw [String.length_toList]
    exact hfits
  have hshort : (dumpsObject (written L.kind (L.payload key))).length ≤ maxTokenLen := by
    have hle := length_le_b64encode (codes (dumpsObject (written L.kind (L.payload key))))
    rw [Iso.length_codes, ← hlist] at hle
    omega
  obtain ⟨hversion, hkind⟩ := L.head _ (L.names key)
  rw [decodeBody_eq_ok_iff, hstrip]
  refine ⟨hlength, ⟨_, _, ?_, htext, loads_written (L.names key) hshort⟩, hversion, hkind⟩
  rw [hlist]
  exact hbytes

/-- A token is refused or is the encoding of its key exactly when it is spelled as written. -/
theorem encode_decode_iff (token : String) :
    (∀ key, L.decode token = .ok key → L.encode key = strip token) ↔
      SpelledAsWritten L.kind token := by
  constructor
  · intro h bytes text body hlength hbytes htext hloads hadm
    obtain ⟨key, hread⟩ := (L.read_ok body).2 ⟨hadm.fields, hadm.readable, hadm.id⟩
    have hbody : decodeBody token L.kind = .ok body := decodeBody_eq_ok_iff.2
      ⟨hlength, ⟨bytes, text, hbytes, htext, hloads⟩, hadm.version, hadm.kind_eq⟩
    have hchars : (strip token).toList =
        b64encode (codes (dumpsObject (written L.kind (L.payload key)))) := by
      rw [← h key (L.decode_eq_ok_iff.2 ⟨body, hbody, hread⟩)]
      exact toList_encode _ _
    -- the stages give back what was written
    obtain ⟨hbytes', htext'⟩ := decode_text (written L.kind (L.payload key))
    rw [hchars, hbytes'] at hbytes
    obtain rfl := Option.some.inj hbytes
    obtain rfl := Option.some.inj (htext'.symm.trans htext)
    have hshort : (dumpsObject (written L.kind (L.payload key))).length ≤ maxTokenLen := by
      have hle := length_le_b64encode (codes (dumpsObject (written L.kind (L.payload key))))
      rw [Iso.length_codes, ← hchars] at hle
      omega
    have hwritten := loads_written (L.names key) hshort
    rw [hloads, Option.some.injEq, Value.object.injEq] at hwritten
    subst hwritten
    exact ⟨hchars, ⟨L.payload key, L.names key, rfl⟩,
      (L.spelled key _ (L.names key) hread).2 rfl⟩
  · intro h key hkey
    obtain ⟨body, hbody, hread⟩ := L.decode_eq_ok_iff.1 hkey
    obtain ⟨hlength, ⟨bytes, text, hbytes, htext, hloads⟩, hversion, hkind⟩ :=
      decodeBody_eq_ok_iff.1 hbody
    obtain ⟨hfields, hreadable, hid⟩ := (L.read_ok body).1 ⟨key, hread⟩
    obtain ⟨hchars, ⟨fields, hnames, rfl⟩, hiso⟩ :=
      h bytes text body hlength hbytes htext hloads ⟨hversion, hkind, hfields, hreadable, hid⟩
    have hshort : (dumpsObject (written L.kind fields)).length ≤ maxTokenLen := by
      have hle := length_le_b64encode (codes (dumpsObject (written L.kind fields)))
      rw [Iso.length_codes, ← hchars] at hle
      omega
    have hwritten := loads_written hnames hshort
    rw [hloads, Option.some.injEq, Value.object.injEq] at hwritten
    subst hwritten
    obtain rfl := (L.spelled key fields hnames hread).1 hiso
    rw [encode, CursorText.encode]
    exact String.toList_injective (String.toList_ofList.trans hchars.symm)

end CursorList

/-! ## The fields of a body -/

theorem optDate_ok_iff {body : Body} {key : String} :
    (∃ d, optDate body key = .ok d) ↔ DateReadable (get body key) := by
  unfold optDate DateReadable
  cases hget : get body key with
  | none => simp
  | some v =>
    cases v with
    | null => simp
    | text points => cases hread : Iso.dateFromIso points <;> simp [hread]
    | _ => simp

theorem optTs_ok_iff {body : Body} {key : String} :
    (∃ t, optTs body key = .ok t) ↔
      get body key = none ∨ get body key = some .null ∨ TimeReadable (get body key) := by
  unfold optTs TimeReadable
  cases hget : get body key with
  | none => simp
  | some v =>
    cases v with
    | null => simp
    | text points =>
      cases hread : Iso.datetimeFromIso points with
      | none => simp [hread]
      | some t => by_cases hoffset : t.offset.isSome <;> simp [hread, hoffset]
    | _ => simp

theorem idOf_eq_ok_iff {body : Body} {n : ℤ} :
    idOf body = .ok n ↔ get body "i" = some (.int n) := by
  unfold idOf
  cases hget : get body "i" with
  | none => simp
  | some v => cases v <;> simp

theorem codes_injective : Function.Injective codes :=
  List.map_injective_iff.2 fun _ _ h => Char.toNat_inj.1 h

theorem text_value_iff {s : String} {points : List ℕ} :
    some (Scalar.text s).value = some (Json.Value.text points) ↔ points = codes s.toList := by
  rw [Scalar.value, Option.some.injEq, Json.Value.text.injEq]
  exact eq_comm

/-- A date that is read from a scalar is written as the scalar where that is an ISO form. -/
theorem optDate_scalar {body : Body} {key : String} {s : Scalar} {date : Option Date}
    (hget : get body key = some s.value) (h : optDate body key = .ok date) :
    (∀ points, get body key = some (.text points) → ∃ d : Date, points = codes d.isoChars) ↔
      s = isoOfDate date := by
  unfold optDate at h
  rw [hget] at h ⊢
  cases s with
  | null =>
    obtain rfl := Except.ok.inj h
    simp [Scalar.value, isoOfDate]
  | int n => cases h
  | text s =>
    simp only [text_value_iff, forall_eq]
    dsimp only [Scalar.value] at h
    cases hread : Iso.dateFromIso (codes s.toList) with
    | none =>
      rw [show s.toList.map Char.toNat = codes s.toList from rfl, hread] at h
      cases h
    | some d =>
      rw [show s.toList.map Char.toNat = codes s.toList from rfl, hread] at h
      obtain rfl := Except.ok.inj h
      constructor
      · rintro ⟨d', hd'⟩
        rw [hd', Iso.dateFromIso_isoChars] at hread
        obtain rfl := Option.some.inj hread
        rw [isoOfDate, Option.elim_some, Date.isoformat, ← codes_injective hd',
          String.ofList_toList]
      · intro hs
        rw [isoOfDate, Option.elim_some, Scalar.text.injEq] at hs
        exact ⟨d, by rw [hs, Date.isoformat, String.toList_ofList]⟩

/-- A time that is read from a scalar is written as the scalar where that is an ISO form with an
offset that is kept. -/
theorem optTs_scalar {body : Body} {key : String} {s : Scalar} {time : Option AwareTime}
    (hget : get body key = some s.value) (h : optTs body key = .ok time) :
    (∀ points, get body key = some (.text points) →
        ∃ t : DateTime, points = codes t.isoChars ∧ KeepsOffset t) ↔ s = isoOfTime time := by
  unfold optTs at h
  rw [hget] at h ⊢
  cases s with
  | null =>
    obtain rfl := Except.ok.inj h
    simp [Scalar.value, isoOfTime]
  | int n => cases h
  | text s =>
    simp only [text_value_iff, forall_eq]
    dsimp only [Scalar.value] at h
    rw [show s.toList.map Char.toNat = codes s.toList from rfl] at h
    cases hread : Iso.datetimeFromIso (codes s.toList) with
    | none =>
      rw [hread] at h
      cases h
    | some t =>
      rw [hread] at h
      dsimp only at h
      split_ifs at h with hoffset
      obtain rfl := Except.ok.inj h
      constructor
      · rintro ⟨t', ht', hkeeps⟩
        rw [ht', (Iso.fromIso_isoformat_iff t').2 hkeeps] at hread
        obtain rfl := Option.some.inj hread
        rw [isoOfTime, Option.elim_some, DateTime.isoformat, ← codes_injective ht',
          String.ofList_toList]
      · intro hs
        rw [isoOfTime, Option.elim_some, Scalar.text.injEq, DateTime.isoformat] at hs
        have hlist : codes s.toList = codes t.isoChars := by rw [hs, String.toList_ofList]
        refine ⟨t, hlist, (Iso.fromIso_isoformat_iff t).1 ?_⟩
        rw [← hlist, hread]

theorem optDate_isoOfDate {body : Body} {key : String} {date : Option Date}
    (hget : get body key = some (isoOfDate date).value) : optDate body key = .ok date := by
  rw [optDate, hget]
  cases date with
  | none => rfl
  | some d =>
    have hread : Iso.dateFromIso (d.isoformat.toList.map Char.toNat) = some d := by
      rw [Date.isoformat, String.toList_ofList]
      exact Iso.dateFromIso_isoChars d
    rw [isoOfDate, Option.elim_some, Scalar.value]
    dsimp only
    rw [hread]

/-- A time that was written is read back where its offset is kept. -/
theorem optTs_isoOfTime_iff {body : Body} {key : String} {time : Option AwareTime}
    (hget : get body key = some (isoOfTime time).value) :
    optTs body key = .ok time ↔ ∀ t ∈ time, KeepsOffset t.val := by
  rw [optTs, hget]
  cases time with
  | none => simp [isoOfTime, Scalar.value]
  | some t =>
    obtain ⟨t', hread, hoffset, -⟩ := Iso.datetimeFromIso_isoChars t.val
    have haware : t'.offset.isSome := by
      rw [hoffset, Option.isSome_map]
      exact t.property
    have hread' : Iso.datetimeFromIso (t.val.isoformat.toList.map Char.toNat) = some t' := by
      rw [DateTime.isoformat, String.toList_ofList]
      exact hread
    have hkeeps := Iso.fromIso_isoformat_iff t.val
    rw [hread, Option.some.injEq] at hkeeps
    rw [isoOfTime, Option.elim_some, Scalar.value]
    dsimp only
    rw [hread']
    dsimp only
    rw [dif_pos haware, Except.ok.injEq, Option.some.injEq, Subtype.ext_iff]
    simpa [KeepsOffset] using hkeeps

/-! ## The executions list -/

theorem fields_executions {fields : List (String × Scalar)}
    (h : fields.map Prod.fst = executionFields) :
    ∃ d t i, fields = [("d", d), ("t", t), ("i", i)] := by
  rcases fields with _ | ⟨⟨k1, d⟩, _ | ⟨⟨k2, t⟩, _ | ⟨⟨k3, i⟩, _ | ⟨m, rest⟩⟩⟩⟩ <;>
    simp [executionFields] at h
  obtain ⟨rfl, rfl, rfl⟩ := h
  exact ⟨d, t, i, rfl⟩

theorem sortKeys_executions (v k d t i : Scalar) :
    sortKeys [("v", v), ("k", k), ("d", d), ("t", t), ("i", i)] =
      [("d", d), ("i", i), ("k", k), ("t", t), ("v", v)] := by
  simp [sortKeys, List.orderedInsert]

theorem writtenBody_executions (d t i : Scalar) :
    writtenBody .executions [("d", d), ("t", t), ("i", i)] =
      [("d", d), ("i", i), ("k", .text "executions"), ("t", t), ("v", .int 1)].map memberValue :=
  congrArg (List.map memberValue) (sortKeys_executions _ _ d t i)

theorem get_executions (d t i : Scalar) :
    get (writtenBody .executions [("d", d), ("t", t), ("i", i)]) "d" = some d.value ∧
      get (writtenBody .executions [("d", d), ("t", t), ("i", i)]) "t" = some t.value ∧
      get (writtenBody .executions [("d", d), ("t", t), ("i", i)]) "i" = some i.value ∧
      get (writtenBody .executions [("d", d), ("t", t), ("i", i)]) "k" =
        some (.text (codes "executions".toList)) ∧
      get (writtenBody .executions [("d", d), ("t", t), ("i", i)]) "v" = some (.int 1) := by
  simp [writtenBody_executions, get, memberValue, List.lookup_cons, Scalar.value, codes]

theorem hasFields_executions (d t i : Scalar) :
    HasFields (writtenBody .executions [("d", d), ("t", t), ("i", i)]) executionFields := by
  rw [writtenBody_executions]
  have hkeys : HasFields ([("d", Scalar.null), ("i", .null), ("k", .null), ("t", .null),
      ("v", .null)].map memberValue) executionFields := by decide
  exact hkeys

theorem readExecution_eq_ok_iff {body : Body} {d : Option Date} {t : Option AwareTime} {i : ℤ} :
    readExecution body = .ok (d, t, i) ↔
      HasFields body executionFields ∧ optDate body "d" = .ok d ∧ optTs body "t" = .ok t ∧
        idOf body = .ok i := by
  unfold readExecution
  by_cases hfields : HasFields body executionFields
  · rw [if_pos hfields]
    cases optDate body "d" with
    | error e => simp [bind, Except.bind]
    | ok d =>
      cases optTs body "t" with
      | error e => simp [bind, Except.bind]
      | ok t =>
        cases idOf body with
        | error e => simp [bind, Except.bind]
        | ok i => simp [bind, Except.bind, pure, Except.pure, hfields]
  · rw [if_neg hfields]
    simp [hfields]

/-- The list of executions. -/
def executionsList : CursorList ExecutionKey where
  kind := .executions
  payload := executionPayload
  read := readExecution
  names := fun _ => rfl
  head := by
    intro fields hnames
    obtain ⟨d, t, i, rfl⟩ := fields_executions hnames
    obtain ⟨-, -, -, hk, hv⟩ := get_executions d t i
    rw [hk, hv]
    exact ⟨rfl, by simp [isText, Kind.name]⟩
  read_ok := by
    intro body
    constructor
    · rintro ⟨⟨d, t, i⟩, h⟩
      obtain ⟨hfields, hd, ht, hi⟩ := readExecution_eq_ok_iff.1 h
      exact ⟨hfields, ⟨optDate_ok_iff.1 ⟨d, hd⟩, optTs_ok_iff.1 ⟨t, ht⟩⟩, i, idOf_eq_ok_iff.1 hi⟩
    · rintro ⟨hfields, ⟨hdate, htime⟩, i, hi⟩
      obtain ⟨d, hd⟩ := optDate_ok_iff.2 hdate
      obtain ⟨t, ht⟩ := optTs_ok_iff.2 htime
      exact ⟨(d, t, i), readExecution_eq_ok_iff.2 ⟨hfields, hd, ht, idOf_eq_ok_iff.2 hi⟩⟩
  spelled := by
    rintro ⟨date, time, id⟩ fields hnames h
    obtain ⟨d, t, i, rfl⟩ := fields_executions hnames
    obtain ⟨hgetd, hgett, hgeti, -⟩ := get_executions d t i
    obtain ⟨-, hd, ht, hi⟩ := readExecution_eq_ok_iff.1 h
    have hid : i = .int id := by
      rw [idOf_eq_ok_iff, hgeti] at hi
      cases i <;> simp_all [Scalar.value]
    rw [IsoSpelled, optDate_scalar hgetd hd, optTs_scalar hgett ht, hid]
    simp [executionPayload]

theorem encodeExecutions_eq (key : ExecutionKey) :
    encodeExecutions key = executionsList.encode key := rfl

theorem decodeExecutions_eq (token : String) :
    decodeExecutions token = executionsList.decode token := rfl

/-! ## The transactions list -/

theorem fields_transactions {fields : List (String × Scalar)}
    (h : fields.map Prod.fst = transactionFields) : ∃ t i, fields = [("t", t), ("i", i)] := by
  rcases fields with _ | ⟨⟨k1, t⟩, _ | ⟨⟨k2, i⟩, _ | ⟨m, rest⟩⟩⟩ <;>
    simp [transactionFields] at h
  obtain ⟨rfl, rfl⟩ := h
  exact ⟨t, i, rfl⟩

theorem sortKeys_transactions (v k t i : Scalar) :
    sortKeys [("v", v), ("k", k), ("t", t), ("i", i)] =
      [("i", i), ("k", k), ("t", t), ("v", v)] := by
  simp [sortKeys, List.orderedInsert]

theorem writtenBody_transactions (t i : Scalar) :
    writtenBody .transactions [("t", t), ("i", i)] =
      [("i", i), ("k", .text "transactions"), ("t", t), ("v", .int 1)].map memberValue :=
  congrArg (List.map memberValue) (sortKeys_transactions _ _ t i)

theorem get_transactions (t i : Scalar) :
    get (writtenBody .transactions [("t", t), ("i", i)]) "d" = none ∧
      get (writtenBody .transactions [("t", t), ("i", i)]) "t" = some t.value ∧
      get (writtenBody .transactions [("t", t), ("i", i)]) "i" = some i.value ∧
      get (writtenBody .transactions [("t", t), ("i", i)]) "k" =
        some (.text (codes "transactions".toList)) ∧
      get (writtenBody .transactions [("t", t), ("i", i)]) "v" = some (.int 1) := by
  simp [writtenBody_transactions, get, memberValue, List.lookup_cons, Scalar.value, codes]

theorem hasFields_transactions (t i : Scalar) :
    HasFields (writtenBody .transactions [("t", t), ("i", i)]) transactionFields := by
  rw [writtenBody_transactions]
  have hkeys : HasFields ([("i", Scalar.null), ("k", .null), ("t", .null),
      ("v", .null)].map memberValue) transactionFields := by decide
  exact hkeys

theorem readTransaction_eq_ok_iff {body : Body} {t : AwareTime} {i : ℤ} :
    readTransaction body = .ok (t, i) ↔
      HasFields body transactionFields ∧ optTs body "t" = .ok (some t) ∧ idOf body = .ok i := by
  unfold readTransaction
  by_cases hfields : HasFields body transactionFields
  · rw [if_pos hfields]
    cases optTs body "t" with
    | error e => simp [bind, Except.bind]
    | ok ts =>
      cases ts with
      | none => simp [bind, Except.bind, requiredTs]
      | some t =>
        cases idOf body with
        | error e => simp [bind, Except.bind, requiredTs]
        | ok i => simp [bind, Except.bind, pure, Except.pure, hfields, requiredTs]
  · rw [if_neg hfields]
    simp [hfields]

theorem optTs_some_iff {body : Body} {key : String} :
    (∃ t, optTs body key = .ok (some t)) ↔ TimeReadable (get body key) := by
  unfold optTs TimeReadable
  cases hget : get body key with
  | none => simp
  | some v =>
    cases v with
    | text points =>
      cases hread : Iso.datetimeFromIso points with
      | none => simp [hread]
      | some t => by_cases hoffset : t.offset.isSome <;> simp [hread, hoffset]
    | _ => simp

/-- The list of transactions. -/
def transactionsList : CursorList TransactionKey where
  kind := .transactions
  payload := transactionPayload
  read := readTransaction
  names := fun _ => rfl
  head := by
    intro fields hnames
    obtain ⟨t, i, rfl⟩ := fields_transactions hnames
    obtain ⟨-, -, -, hk, hv⟩ := get_transactions t i
    rw [hk, hv]
    exact ⟨rfl, by simp [isText, Kind.name]⟩
  read_ok := by
    intro body
    constructor
    · rintro ⟨⟨t, i⟩, h⟩
      obtain ⟨hfields, ht, hi⟩ := readTransaction_eq_ok_iff.1 h
      exact ⟨hfields, optTs_some_iff.1 ⟨t, ht⟩, i, idOf_eq_ok_iff.1 hi⟩
    · rintro ⟨hfields, htime, i, hi⟩
      obtain ⟨t, ht⟩ := optTs_some_iff.2 htime
      exact ⟨(t, i), readTransaction_eq_ok_iff.2 ⟨hfields, ht, idOf_eq_ok_iff.2 hi⟩⟩
  spelled := by
    rintro ⟨time, id⟩ fields hnames h
    obtain ⟨t, i, rfl⟩ := fields_transactions hnames
    obtain ⟨hgetd, hgett, hgeti, -⟩ := get_transactions t i
    obtain ⟨-, ht, hi⟩ := readTransaction_eq_ok_iff.1 h
    have hid : i = .int id := by
      rw [idOf_eq_ok_iff, hgeti] at hi
      cases i <;> simp_all [Scalar.value]
    rw [IsoSpelled, hgetd, optTs_scalar hgett ht, hid]
    simp [transactionPayload]

/-! ## Keys -/

theorem readExecution_payload_iff (key : ExecutionKey) :
    readExecution (writtenBody .executions (executionPayload key)) = .ok key ↔
      ∀ t ∈ key.2.1, KeepsOffset t.val := by
  obtain ⟨date, time, id⟩ := key
  obtain ⟨hgetd, hgett, hgeti, -⟩ := get_executions (isoOfDate date) (isoOfTime time) (.int id)
  show readExecution (writtenBody _ [("d", _), ("t", _), ("i", _)]) = _ ↔ _
  rw [readExecution_eq_ok_iff, optDate_isoOfDate hgetd, optTs_isoOfTime_iff hgett,
    idOf_eq_ok_iff, hgeti]
  exact ⟨fun h => h.2.2.1, fun h => ⟨hasFields_executions _ _ _, rfl, h, rfl⟩⟩

theorem readTransaction_payload_iff (key : TransactionKey) :
    readTransaction (writtenBody .transactions (transactionPayload key)) = .ok key ↔
      KeepsOffset key.1.val := by
  obtain ⟨time, id⟩ := key
  obtain ⟨-, hgett, hgeti, -⟩ := get_transactions (isoOfTime (some time)) (.int id)
  show readTransaction (writtenBody _ [("t", _), ("i", _)]) = _ ↔ _
  rw [readTransaction_eq_ok_iff, optTs_isoOfTime_iff hgett, idOf_eq_ok_iff, hgeti]
  simp only [Option.mem_some_iff, forall_eq']
  exact ⟨fun h => h.2.1, fun h => ⟨hasFields_transactions _ _, h, rfl⟩⟩

/-! ## The law of cursors -/

variable {κ : Type}

/-- The token is refused, or it is the encoding of the key it gives. -/
def OnlyIssued (decode : String → Except InvalidCursor κ) (encode : κ → String)
    (token : String) : Prop :=
  ∀ key, decode token = .ok key → encode key = strip token

/-- The key is read back from its encoding, where that is not too long. -/
def ReturnsKey (decode : String → Except InvalidCursor κ) (encode : κ → String)
    (key : κ) : Prop :=
  (encode key).length ≤ maxTokenLen → decode (encode key) = .ok key

/-- Cursors are accepted only if issued, and every key is read back. -/
def CursorLaw : Prop :=
  (∀ token, OnlyIssued decodeExecutions encodeExecutions token) ∧
  (∀ token, OnlyIssued decodeTransactions encodeTransactions token) ∧
  (∀ key, ReturnsKey decodeExecutions encodeExecutions key) ∧
  ∀ key, ReturnsKey decodeTransactions encodeTransactions key

theorem CursorList.returnsKey_iff (L : CursorList κ) (key : κ) {keeps : Prop}
    (hkeeps : L.read (writtenBody L.kind (L.payload key)) = .ok key ↔ keeps) :
    ReturnsKey L.decode L.encode key ↔ ((L.encode key).length ≤ maxTokenLen → keeps) := by
  refine forall_congr' fun hfits => ?_
  rw [decode, L.decodeBody_encode hfits]
  exact hkeeps

theorem returnsExecution_iff (key : ExecutionKey) :
    ReturnsKey decodeExecutions encodeExecutions key ↔
      ((encodeExecutions key).length ≤ maxTokenLen → ∀ t ∈ key.2.1, KeepsOffset t.val) := by
  have hread : executionsList.read (writtenBody executionsList.kind (executionsList.payload key)) =
      .ok key ↔ ∀ t ∈ key.2.1, KeepsOffset t.val := by
    dsimp only [executionsList]
    exact readExecution_payload_iff key
  exact executionsList.returnsKey_iff key hread

theorem returnsTransaction_iff (key : TransactionKey) :
    ReturnsKey decodeTransactions encodeTransactions key ↔
      ((encodeTransactions key).length ≤ maxTokenLen → KeepsOffset key.1.val) := by
  have hread : transactionsList.read
      (writtenBody transactionsList.kind (transactionsList.payload key)) = .ok key ↔
        KeepsOffset key.1.val := by
    dsimp only [transactionsList]
    exact readTransaction_payload_iff key
  exact transactionsList.returnsKey_iff key hread

/-- A token is refused or issued exactly when each of its layers is spelled as the encoder spells
it, and a key is read back exactly when the offset of its time is zero or at least a second. -/
theorem cursorTokens_iff (token : String) (execution : ExecutionKey)
    (transaction : TransactionKey) :
    (OnlyIssued decodeExecutions encodeExecutions token ↔ SpelledAsWritten .executions token) ∧
    (OnlyIssued decodeTransactions encodeTransactions token ↔
      SpelledAsWritten .transactions token) ∧
    (ReturnsKey decodeExecutions encodeExecutions execution ↔
      ((encodeExecutions execution).length ≤ maxTokenLen →
        ∀ t ∈ execution.2.1, KeepsOffset t.val)) ∧
    (ReturnsKey decodeTransactions encodeTransactions transaction ↔
      ((encodeTransactions transaction).length ≤ maxTokenLen →
        KeepsOffset transaction.1.val)) :=
  ⟨executionsList.encode_decode_iff token, transactionsList.encode_decode_iff token,
    returnsExecution_iff execution, returnsTransaction_iff transaction⟩

/-- A token with its padding is accepted, and it was not issued. -/
theorem not_cursorLaw_padded : ¬ CursorLaw := by
  intro h
  have hread : decodeExecutions
      "eyJkIjpudWxsLCJpIjoxMiwiayI6ImV4ZWN1dGlvbnMiLCJ0IjpudWxsLCJ2IjoxfQ==" =
        .ok (none, none, 12) := by decide +kernel
  have hissued := h.1 _ _ hread
  revert hissued
  decide +kernel

end Portfolio.CursorText

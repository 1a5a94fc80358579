import KVStorage.Library.WireSize

/-!
# Reading and writing the protobuf wire

A message is a list of fields with numbers. The writer makes varint and
length-delimited fields; the reader also passes over fields of other types and over
groups, nested up to a given depth, and gives the varint and length-delimited fields
outside groups in their order.
-/

namespace Wire

set_option autoImplicit false

inductive Value where
  | varint (n : UInt64)
  | bytes (data : List UInt8)
  deriving DecidableEq

structure Field where
  number : Nat
  value : Value
  deriving DecidableEq

/-! ## Varints -/

/-- The base-128 digits of `n`, least significant first, `f` of them at most. -/
def varintOf : Nat → Nat → List UInt8
  | 0, _ => []
  | f + 1, n =>
    if n < 128 then [UInt8.ofNat n] else UInt8.ofNat (n % 128 + 128) :: varintOf f (n / 128)

def varint (n : UInt64) : List UInt8 := varintOf 10 n.toNat

/-- A number of at most `f` bytes, and what comes after it. -/
def readVarint : Nat → List UInt8 → Option (Nat × List UInt8)
  | 0, _ => none
  | _ + 1, [] => none
  | f + 1, b :: rest =>
    if b.toNat < 128 then some (b.toNat, rest)
    else (readVarint f rest).map fun r => (b.toNat - 128 + 128 * r.1, r.2)

theorem digits_div {f n : Nat} (hn : ¬ n < 128) (h : n < 128 ^ (f + 1)) : n / 128 < 128 ^ f ∧ 0 < f := by
  have hdiv : n / 128 < 128 ^ f := by
    rw [Nat.pow_succ] at h
    exact Nat.div_lt_of_lt_mul (by omega)
  refine ⟨hdiv, Nat.pos_of_ne_zero ?_⟩
  rintro rfl
  omega

theorem readVarint_varintOf {f g n : Nat} (hf : n < 128 ^ f) (hg : n < 128 ^ g) (hf0 : 0 < f)
    (hg0 : 0 < g) (rest : List UInt8) : readVarint g (varintOf f n ++ rest) = some (n, rest) := by
  induction f generalizing g n with
  | zero => omega
  | succ f ih =>
    obtain ⟨g, rfl⟩ : ∃ g', g = g' + 1 := ⟨g - 1, by omega⟩
    rw [varintOf]
    by_cases hn : n < 128
    · have hb : (UInt8.ofNat n).toNat = n := by
        rw [UInt8.toNat_ofNat']
        omega
      rw [if_pos hn, List.singleton_append, readVarint, hb, if_pos hn]
    · have hb : (UInt8.ofNat (n % 128 + 128)).toNat = n % 128 + 128 := by
        rw [UInt8.toNat_ofNat']
        omega
      obtain ⟨hdf, hf1⟩ := digits_div hn hf
      obtain ⟨hdg, hg1⟩ := digits_div hn hg
      rw [if_neg hn, List.cons_append, readVarint, hb, if_neg (by omega), ih hdf hdg hf1 hg1]
      simp only [Option.map_some, Option.some.injEq, Prod.mk.injEq, and_true]
      omega

theorem varintOf_length {f n : Nat} (hf : n < 128 ^ f) (hf0 : 0 < f) :
    (varintOf f n).length = WireSize.varint n := by
  induction f generalizing n with
  | zero => omega
  | succ f ih =>
    rw [varintOf]
    by_cases hn : n < 128
    · rw [if_pos hn, List.length_singleton, WireSize.varint_small hn]
    · obtain ⟨hdf, hf1⟩ := digits_div hn hf
      rw [if_neg hn, List.length_cons, ih hdf hf1]
      exact WireSize.varint_div (by omega)

theorem varint_length (n : UInt64) : (varint n).length = WireSize.uint64 n := by
  apply varintOf_length _ (by omega)
  have := n.toNat_lt
  omega

/-- `ReadVarint64`. -/
def readVarint64 (bs : List UInt8) : Option (UInt64 × List UInt8) :=
  (readVarint 10 bs).map fun r => (UInt64.ofNat r.1, r.2)

theorem readVarint64_varint (n : UInt64) (rest : List UInt8) :
    readVarint64 (varint n ++ rest) = some (n, rest) := by
  have hn : n.toNat < 128 ^ 10 := by
    have := n.toNat_lt
    omega
  rw [readVarint64, varint, readVarint_varintOf hn hn (by omega) (by omega), Option.map_some,
    UInt64.ofNat_toNat]

/-! ## Fields -/

/-- The largest length `ReadSize` accepts. -/
def maxSize : Nat := 2147483631

def readSize (bs : List UInt8) : Option (Nat × List UInt8) :=
  (readVarint 5 bs).filter fun r => r.1 ≤ maxSize

/-- A field without its tag. -/
def encodeValue : Value → List UInt8
  | .varint n => varint n
  | .bytes data => varintOf 5 data.length ++ data

def wireType : Value → Nat
  | .varint _ => 0
  | .bytes _ => 2

def encodeField (f : Field) : List UInt8 :=
  varintOf 5 (8 * f.number + wireType f.value) ++ encodeValue f.value

def encode (fs : List Field) : List UInt8 := fs.flatMap encodeField

/-- What the reader finds after a tag. -/
inductive Item where
  | value (v : Value)
  /-- A fixed-size value, which no message here has a field for. -/
  | fixed
  | startGroup
  | endGroup
  deriving DecidableEq

def readItem (tag : Nat) (bs : List UInt8) : Option (Item × List UInt8) :=
  match tag % 8 with
  | 0 => (readVarint64 bs).map fun r => (.value (.varint r.1), r.2)
  | 1 => if 8 ≤ bs.length then some (.fixed, bs.drop 8) else none
  | 2 =>
    (readSize bs).bind fun r =>
      if r.1 ≤ r.2.length then some (.value (.bytes (r.2.take r.1)), r.2.drop r.1) else none
  | 3 => some (.startGroup, bs)
  | 4 => some (.endGroup, bs)
  | 5 => if 4 ≤ bs.length then some (.fixed, bs.drop 4) else none
  | _ => none

/-- Reads a message to its end. `groups` are the numbers of the open groups, innermost
first, and `depth` says how many more may be opened; what is inside a group is passed
over. Every item takes a byte at least, so `fuel` is the number of bytes. -/
def readFields : Nat → Nat → List Nat → List UInt8 → Option (List Field)
  | _, _, [], [] => some []
  | _, _, _ :: _, [] => none
  | 0, _, _, _ :: _ => none
  | fuel + 1, depth, groups, b :: bs =>
    (readVarint 5 (b :: bs)).bind fun r =>
      let tag := r.1 % 4294967296
      let number := tag / 8
      if number = 0 then none
      else
        (readItem tag r.2).bind fun item =>
          match item.1, groups with
          | .value v, [] => (readFields fuel depth [] item.2).map (⟨number, v⟩ :: ·)
          | .value _, _ :: _ | .fixed, _ => readFields fuel depth groups item.2
          | .startGroup, _ =>
            match depth with
            | 0 => none
            | depth + 1 => readFields fuel depth (number :: groups) item.2
          | .endGroup, [] => none
          | .endGroup, g :: outer => if g = number then readFields fuel (depth + 1) outer item.2 else none

/-- The fields of a message. -/
def fields (depth : Nat) (bs : List UInt8) : Option (List Field) := readFields bs.length depth [] bs

/-- `ParseFromArray`, for a message that takes in its fields one after the other. -/
def parse {α : Type} (merge : α → Field → Option α) (depth : Nat) (a : α) (bs : List UInt8) : Option α :=
  (fields depth bs).bind fun fs => fs.foldlM merge a

/-- The elements of a packed repeated field. -/
def readPacked : Nat → List UInt8 → Option (List UInt64)
  | _, [] => some []
  | 0, _ :: _ => none
  | fuel + 1, b :: bs =>
    (readVarint64 (b :: bs)).bind fun r => (readPacked fuel r.2).map (r.1 :: ·)

def packed (bs : List UInt8) : Option (List UInt64) := readPacked bs.length bs

/-- A field of a message without presence: the default value is not written. -/
def varintField (number : Nat) (n : UInt64) : List Field :=
  if n = 0 then [] else [⟨number, .varint n⟩]

def bytesField (number : Nat) (data : List UInt8) : List Field :=
  if data = [] then [] else [⟨number, .bytes data⟩]

/-! ## What the writer writes is read back -/

/-- The field has a number and a size that the wire allows. -/
structure Field.Fits (f : Field) : Prop where
  number_pos : 0 < f.number
  number_lt : f.number < 536870912
  size : ∀ data, f.value = .bytes data → data.length ≤ maxSize

/-- What the reader accepts is within what the writer can announce. -/
theorem lt_of_le_maxSize {n : Nat} (h : n ≤ maxSize) : n < 128 ^ 5 := by
  unfold maxSize at h
  omega

theorem wireType_lt (v : Value) : wireType v < 8 := by
  cases v <;> simp [wireType]

theorem readItem_encodeValue {v : Value} (hsize : ∀ data, v = .bytes data → data.length ≤ maxSize)
    {tag : Nat} (htag : tag % 8 = wireType v) (rest : List UInt8) :
    readItem tag (encodeValue v ++ rest) = some (.value v, rest) := by
  cases v with
  | varint n =>
    rw [readItem, htag]
    simp only [wireType, encodeValue, readVarint64_varint, Option.map_some]
  | bytes data =>
    have hle := hsize data rfl
    have hlt := lt_of_le_maxSize hle
    have hread : readSize (varintOf 5 data.length ++ (data ++ rest)) = some (data.length, data ++ rest) := by
      rw [readSize, readVarint_varintOf hlt hlt (by omega) (by omega)]
      simp [hle]
    rw [readItem, htag]
    simp only [wireType, encodeValue, List.append_assoc, hread, Option.bind_some]
    rw [if_pos (by simp), List.take_left, List.drop_left]

theorem varintOf_ne_nil {f : Nat} (hf : 0 < f) (n : Nat) : varintOf f n ≠ [] := by
  obtain ⟨f, rfl⟩ : ∃ f', f = f' + 1 := ⟨f - 1, by omega⟩
  rw [varintOf]
  split <;> simp

theorem encodeField_length_pos (f : Field) : 0 < (encodeField f).length := by
  rw [encodeField, List.length_append]
  have := List.length_pos_iff.mpr (varintOf_ne_nil (by omega : 0 < 5) (8 * f.number + wireType f.value))
  omega

theorem readFields_field {f : Field} (hf : f.Fits) (fuel depth : Nat) (rest : List UInt8) :
    readFields (fuel + 1) depth [] (encodeField f ++ rest) =
      (readFields fuel depth [] rest).map (f :: ·) := by
  have hnumber := hf.number_lt
  have hpos := hf.number_pos
  have htype := wireType_lt f.value
  have htag : 8 * f.number + wireType f.value < 128 ^ 5 := by omega
  have hmod : (8 * f.number + wireType f.value) % 4294967296 = 8 * f.number + wireType f.value :=
    Nat.mod_eq_of_lt (by omega)
  have hdiv : (8 * f.number + wireType f.value) / 8 = f.number := by omega
  have hitem : readItem (8 * f.number + wireType f.value) (encodeValue f.value ++ rest) =
      some (.value f.value, rest) := readItem_encodeValue hf.size (by omega) rest
  have hread : readVarint 5 (encodeField f ++ rest) =
      some (8 * f.number + wireType f.value, encodeValue f.value ++ rest) := by
    rw [encodeField, List.append_assoc]
    exact readVarint_varintOf htag htag (by omega) (by omega) _
  cases hbs : encodeField f ++ rest with
  | nil =>
    have := encodeField_length_pos f
    rw [List.append_eq_nil_iff] at hbs
    rw [hbs.1] at this
    exact absurd this (by simp)
  | cons b bs =>
    rw [hbs] at hread
    rw [readFields, hread]
    simp only [Option.bind_some, hmod, hdiv, if_neg (by omega : f.number ≠ 0), hitem]

/-- Data of a size that `ReadSize` refuses makes the whole message unreadable. -/
theorem readFields_too_large {number : Nat} (h0 : 0 < number) (hnumber : number < 536870912)
    {data : List UInt8} (hlarge : maxSize < data.length) (hlt : data.length < 128 ^ 5) (fuel depth : Nat)
    (rest : List UInt8) :
    readFields fuel depth [] (encodeField ⟨number, .bytes data⟩ ++ rest) = none := by
  have htag : 8 * number + 2 < 128 ^ 5 := by omega
  have hmod : (8 * number + 2) % 4294967296 = 8 * number + 2 := Nat.mod_eq_of_lt (by omega)
  have hdiv : (8 * number + 2) / 8 = number := by omega
  have htype : (8 * number + 2) % 8 = 2 := by omega
  have hsize : readSize (varintOf 5 data.length ++ (data ++ rest)) = none := by
    rw [readSize, readVarint_varintOf hlt hlt (by omega) (by omega)]
    simp [hlarge]
  have hitem : readItem (8 * number + 2) (varintOf 5 data.length ++ (data ++ rest)) = none := by
    rw [readItem, htype]
    simp only [hsize, Option.bind_none]
  have hread : readVarint 5 (encodeField ⟨number, .bytes data⟩ ++ rest) =
      some (8 * number + 2, varintOf 5 data.length ++ (data ++ rest)) := by
    rw [encodeField, encodeValue, List.append_assoc, List.append_assoc]
    exact readVarint_varintOf htag htag (by omega) (by omega) _
  cases hbs : encodeField ⟨number, .bytes data⟩ ++ rest with
  | nil =>
    have := encodeField_length_pos ⟨number, .bytes data⟩
    rw [List.append_eq_nil_iff] at hbs
    rw [hbs.1] at this
    exact absurd this (by simp)
  | cons b bs =>
    cases fuel with
    | zero => rfl
    | succ fuel =>
      rw [hbs] at hread
      rw [readFields, hread]
      simp only [Option.bind_some, hmod, hdiv, if_neg (by omega : number ≠ 0), hitem, Option.bind_none]

theorem readFields_encode {fs : List Field} (h : ∀ f ∈ fs, f.Fits) {fuel : Nat} (depth : Nat)
    (hfuel : fs.length ≤ fuel) : readFields fuel depth [] (encode fs) = some fs := by
  induction fs generalizing fuel with
  | nil => cases fuel <;> rfl
  | cons f fs ih =>
    obtain ⟨fuel, rfl⟩ : ∃ fuel', fuel = fuel' + 1 := ⟨fuel - 1, by simp at hfuel; omega⟩
    have hrest : fs.length ≤ fuel := by simpa using hfuel
    rw [encode, List.flatMap_cons, readFields_field (h f List.mem_cons_self)]
    have hih := ih (fun f hf => h f (List.mem_cons_of_mem _ hf)) hrest
    rw [encode] at hih
    rw [hih, Option.map_some]

theorem length_le_encode (fs : List Field) : fs.length ≤ (encode fs).length := by
  induction fs with
  | nil => exact Nat.le_refl 0
  | cons f fs ih =>
    have := encodeField_length_pos f
    rw [encode] at ih
    rw [encode, List.flatMap_cons, List.length_append, List.length_cons]
    omega

theorem fields_encode {fs : List Field} (h : ∀ f ∈ fs, f.Fits) (depth : Nat) :
    fields depth (encode fs) = some fs := readFields_encode h depth (length_le_encode fs)

theorem parse_encode {α : Type} (merge : α → Field → Option α) {fs : List Field}
    (h : ∀ f ∈ fs, f.Fits) (depth : Nat) (a : α) :
    parse merge depth a (encode fs) = fs.foldlM merge a := by
  rw [parse, fields_encode h, Option.bind_some]

section Defaults

variable {α : Type} {merge : α → Field → Option α} {a a' : α} {number : Nat}

theorem foldlM_varintField {n : UInt64} (h : merge a ⟨number, .varint n⟩ = some a') (h0 : n = 0 → a' = a) :
    (varintField number n).foldlM merge a = some a' := by
  unfold varintField
  by_cases hn : n = 0
  · rw [if_pos hn, h0 hn]
    rfl
  · rw [if_neg hn, List.foldlM_cons, h]
    rfl

theorem foldlM_bytesField {data : List UInt8} (h : merge a ⟨number, .bytes data⟩ = some a')
    (h0 : data = [] → a' = a) : (bytesField number data).foldlM merge a = some a' := by
  unfold bytesField
  by_cases hn : data = []
  · rw [if_pos hn, h0 hn]
    rfl
  · rw [if_neg hn, List.foldlM_cons, h]
    rfl

end Defaults

theorem foldlM_append {α : Type} {merge : α → Field → Option α} {a a' : α} {fs : List Field}
    (h : fs.foldlM merge a = some a') (gs : List Field) :
    (fs ++ gs).foldlM merge a = gs.foldlM merge a' := by
  rw [List.foldlM_append, h]
  rfl

/-! ## Sizes -/

theorem encode_append (fs gs : List Field) : encode (fs ++ gs) = encode fs ++ encode gs :=
  List.flatMap_append

theorem tag_length {number : Nat} (h : number < 16) (v : Value) :
    (varintOf 5 (8 * number + wireType v)).length = 1 := by
  have := wireType_lt v
  rw [varintOf, if_pos (by omega), List.length_singleton]

theorem encodeField_varint_length {number : Nat} (h : number < 16) (n : UInt64) :
    (encodeField ⟨number, .varint n⟩).length = 1 + WireSize.uint64 n := by
  rw [encodeField, List.length_append, tag_length h, encodeValue, varint_length]

theorem encodeField_bytes_length {number : Nat} (h : number < 16) {data : List UInt8}
    (hsize : data.length < 128 ^ 5) :
    (encodeField ⟨number, .bytes data⟩).length = 1 + WireSize.delimited data.length := by
  rw [encodeField, List.length_append, tag_length h, encodeValue, List.length_append,
    varintOf_length hsize (by omega), WireSize.delimited]
  omega

theorem encode_map_length {α : Type} {number : Nat} (h : number < 16) {data : α → List UInt8}
    (l : List α) (hsize : ∀ a ∈ l, (data a).length < 128 ^ 5) :
    (encode (l.map fun a => ⟨number, .bytes (data a)⟩)).length =
      (l.map fun a => 1 + WireSize.delimited (data a).length).sum := by
  rw [encode, List.flatMap_map, List.length_flatMap]
  congr 1
  apply List.map_congr_left
  intro a ha
  exact encodeField_bytes_length h (hsize a ha)

theorem varintField_length {number : Nat} (h : number < 16) (n : UInt64) :
    (encode (varintField number n)).length = if n = 0 then 0 else 1 + WireSize.uint64 n := by
  unfold varintField
  split
  · rfl
  · rw [encode, List.flatMap_singleton, encodeField_varint_length h]

theorem bytesField_length {number : Nat} (h : number < 16) {data : List UInt8}
    (hsize : data.length < 128 ^ 5) :
    (encode (bytesField number data)).length = if data = [] then 0 else 1 + WireSize.delimited data.length := by
  unfold bytesField
  split
  · rfl
  · rw [encode, List.flatMap_singleton, encodeField_bytes_length h hsize]

theorem size_le_encode {fs : List Field} {f : Field} (hf : f ∈ fs) {data : List UInt8}
    (hd : f.value = .bytes data) : data.length ≤ (encode fs).length := by
  obtain ⟨before, after, rfl⟩ := List.append_of_mem hf
  rw [encode, List.flatMap_append, List.flatMap_cons, List.length_append, List.length_append,
    encodeField, hd, encodeValue]
  simp only [List.length_append]
  omega

/-- The numbers a message may use. -/
def Numbered (fs : List Field) : Prop := ∀ f ∈ fs, 0 < f.number ∧ f.number < 536870912

theorem Numbered.append {fs gs : List Field} (hf : Numbered fs) (hg : Numbered gs) : Numbered (fs ++ gs) :=
  List.forall_mem_append.mpr ⟨hf, hg⟩

theorem numbered_map {α : Type} {number : Nat} (h0 : 0 < number) (h : number < 536870912) (value : α → Value)
    (l : List α) : Numbered (l.map fun a => ⟨number, value a⟩) :=
  List.forall_mem_map.mpr fun _ _ => ⟨h0, h⟩

theorem numbered_singleton {number : Nat} (h0 : 0 < number) (h : number < 536870912) (v : Value) :
    Numbered [⟨number, v⟩] := List.forall_mem_singleton.mpr ⟨h0, h⟩

theorem numbered_varintField {number : Nat} (h0 : 0 < number) (h : number < 536870912) (n : UInt64) :
    Numbered (varintField number n) := by
  unfold varintField
  split
  · exact List.forall_mem_nil _
  · exact numbered_singleton h0 h _

theorem numbered_bytesField {number : Nat} (h0 : 0 < number) (h : number < 536870912) (data : List UInt8) :
    Numbered (bytesField number data) := by
  unfold bytesField
  split
  · exact List.forall_mem_nil _
  · exact numbered_singleton h0 h _

theorem Numbered.fits {fs : List Field} (h : Numbered fs) (hsize : (encode fs).length ≤ maxSize) :
    ∀ f ∈ fs, f.Fits := by
  intro f hf
  refine ⟨(h f hf).1, (h f hf).2, ?_⟩
  intro data hd
  exact (size_le_encode hf hd).trans hsize

end Wire

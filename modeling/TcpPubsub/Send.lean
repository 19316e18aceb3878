import TcpPubsub.Wire

/-!
# The frame `send` prepares

`Publisher_Impl::send` takes a buffer from the pool, sizes it with a first loop over the
payload list, stores the header through a `TcpHeader` pointer and copies the payloads with a
second loop.  Sizes are `size_t` and wrap modulo `2 ^ w`.  The pool's buffer is an input: it
is fresh (empty) or still holds the bytes and the capacity of an earlier frame.  Sizing it can
throw `std::length_error` (libstdc++'s `reserve` and `resize` past `max_size()`), and a store
past `size()` or a reserve count out of `size_t`'s range is undefined behaviour: each is
modelled as `none`, no frame.
-/

namespace TcpPubsub.Send

open Wire

/-- The width of `size_t` on the target. -/
inductive SizeTWidth
  | bits32
  | bits64
  deriving DecidableEq, Repr

def SizeTWidth.bits : SizeTWidth → ℕ
  | bits32 => 32
  | bits64 => 64

/-- One entry of the payload list, `std::pair<const char* const, const size_t>`: `first` is
`none` for a null pointer and otherwise the memory it points to, at least `second` bytes. -/
structure Payload (w : SizeTWidth) where
  first : Option (List Byte)
  second : ℕ
  second_lt : second < 2 ^ w.bits
  second_le : ∀ bytes ∈ first, second ≤ bytes.length

variable {w : SizeTWidth}

/-- The size loop: `entire_payload_size += payload.second` on `size_t`. -/
def entirePayloadSize (w : SizeTWidth) (payloads : List (Payload w)) : ℕ :=
  payloads.foldl (fun size payload => (size + payload.second) % 2 ^ w.bits) 0

/-- `std::vector<char>::resize`: keep the first `count` bytes, zero the new ones. -/
def resize (buffer : List Byte) (count : ℕ) : List Byte :=
  buffer.take count ++ List.replicate (count - buffer.length) 0

/-- `bytes` written over `buffer` from `position` on. -/
def overwrite (buffer : List Byte) (position : ℕ) (bytes : List Byte) : List Byte :=
  buffer.take position ++ bytes ++ buffer.drop (position + bytes.length)

/-- `memcpy(&(*buffer)[position], ...)`; undefined behaviour past `size()`. -/
def store (buffer : List Byte) (position : ℕ) (bytes : List Byte) : Option (List Byte) :=
  if position + bytes.length ≤ buffer.length then some (overwrite buffer position bytes)
  else none

/-- The four stores through `header`.  The `TcpHeader` they go through must lie inside the
vector; its bytes after `data_size` are not written. -/
def fillHeader (buffer : List Byte) (entirePayloadSize : ℕ) : Option (List Byte) :=
  if sizeofTcpHeader ≤ buffer.length then
    let buffer := overwrite buffer headerSizeOffset (toLE 2 sizeofTcpHeader)
    let buffer := overwrite buffer typeOffset [MessageContentType.regularPayload.toByte]
    let buffer := overwrite buffer reservedOffset [0]
    some (overwrite buffer dataSizeOffset (toLE 8 entirePayloadSize))
  else none

/-- The copy loop from `current_position` on: non-null entries of positive length only. -/
def copyPayloads (w : SizeTWidth) : List Byte → ℕ → List (Payload w) → Option (List Byte)
  | buffer, _, [] => some buffer
  | buffer, currentPosition, payload :: payloads =>
      match payload.first with
      | some bytes =>
          if 0 < payload.second then
            (store buffer currentPosition (bytes.take payload.second)).bind fun buffer =>
              copyPayloads w buffer ((currentPosition + payload.second) % 2 ^ w.bits) payloads
          else copyPayloads w buffer currentPosition payloads
      | none => copyPayloads w buffer currentPosition payloads

/-- A vector of the pool: its bytes, `size()` of them, and its `capacity()`.  A fresh one is
empty; a recycled one keeps the bytes and the capacity of the frame it last held. -/
structure PoolBuffer where
  bytes : List Byte
  capacity : ℕ
  deriving DecidableEq, Repr

/-- The empty vector the pool makes when it has none to hand back. -/
def PoolBuffer.fresh : PoolBuffer := ⟨[], 0⟩

/-- `max_size()` of `std::vector<char>` in libstdc++: `PTRDIFF_MAX`. -/
def maxSize (w : SizeTWidth) : ℕ := 2 ^ (w.bits - 1) - 1

/-- How often `x` must be halved to fall below `2 ^ p`, searched at most `fuel` times. -/
def shiftBelow (p : ℕ) : ℕ → ℕ → ℕ
  | 0, _ => 0
  | fuel + 1, x => if x < 2 ^ p then 0 else shiftBelow p fuel (x / 2) + 1

/-- `x` rounded to `p` significant bits, to nearest with ties to even, as IEEE 754 rounds into a
binary format of precision `p`.  The search covers every `x` below `2 ^ (p + 128)`. -/
def roundToPrecision (p x : ℕ) : ℕ :=
  let unit := 2 ^ shiftBelow p 128 x
  let kept := x / unit
  let dropped := x % unit
  (if unit < 2 * dropped ∨ (unit = 2 * dropped ∧ kept % 2 = 1) then kept + 1 else kept) * unit

/-- The double nearest to `1.1`, `0x1.199999999999Ap0`, times `2 ^ 52`. -/
def doubleOnePointOne : ℕ := 4953959590107546

/-- `complete_size * 1.1` truncated toward zero: `complete_size` converted to `double`,
multiplied by the double nearest to `1.1`, the product rounded to 53 significant bits. -/
def tenPercentMore (completeSize : ℕ) : ℕ :=
  roundToPrecision 53 (roundToPrecision 53 completeSize * doubleOnePointOne) / 2 ^ 52

/-- `static_cast<size_t>(complete_size * 1.1)`: `none` where the truncated product does not fit
`size_t`, for which the conversion is undefined. -/
def reserveSize (w : SizeTWidth) (completeSize : ℕ) : Option ℕ :=
  if tenPercentMore completeSize < 2 ^ w.bits then some (tenPercentMore completeSize) else none

/-- `reserve(count)`: `std::length_error` past `max_size()`; otherwise the capacity grows to
`count` if it was smaller. -/
def reserve (w : SizeTWidth) (buffer : PoolBuffer) (count : ℕ) : Option PoolBuffer :=
  if maxSize w < count then none else some { buffer with capacity := max buffer.capacity count }

/-- `resize(count)`: in place within the capacity.  Past it, `std::length_error` if `count`
exceeds `max_size()`, and otherwise the vector grows to `max(2 * size(), count)`, at most
`max_size()`. -/
def PoolBuffer.resize (w : SizeTWidth) (buffer : PoolBuffer) (count : ℕ) : Option PoolBuffer :=
  if count ≤ buffer.capacity then some ⟨Send.resize buffer.bytes count, buffer.capacity⟩
  else if maxSize w < count then none
  else some ⟨Send.resize buffer.bytes count,
    min (maxSize w) (max (2 * buffer.bytes.length) count)⟩

/-- The sizing block: `reserve` by a tenth more when the capacity is below `complete_size`,
then `resize(complete_size)`. -/
def sizeBuffer (w : SizeTWidth) (buffer : PoolBuffer) (completeSize : ℕ) : Option PoolBuffer :=
  let reserved :=
    if buffer.capacity < completeSize then (reserveSize w completeSize).bind (reserve w buffer)
    else some buffer
  reserved.bind (PoolBuffer.resize w · completeSize)

/-- The stores through `header` and the copy loop, on the sized buffer's bytes. -/
def fillBuffer (w : SizeTWidth) (payloads : List (Payload w)) (bytes : List Byte) :
    Option (List Byte) :=
  (fillHeader bytes (entirePayloadSize w payloads)).bind fun bytes =>
    copyPayloads w bytes sizeofTcpHeader payloads

/-- The frame `send` prepares in the pool's `buffer`: size loop, sizing, header, copy loop. -/
def sendBuffer (w : SizeTWidth) (payloads : List (Payload w)) (buffer : PoolBuffer) :
    Option PoolBuffer :=
  let completeSize := (sizeofTcpHeader + entirePayloadSize w payloads) % 2 ^ w.bits
  (sizeBuffer w buffer completeSize).bind fun buffer =>
    (fillBuffer w payloads buffer.bytes).map fun bytes => { buffer with bytes := bytes }

/-- The true sum of the lengths. -/
def totalLength (payloads : List (Payload w)) : ℕ :=
  (payloads.map Payload.second).sum

/-- The payload bytes in list order, as the copy loop reads them. -/
def payloadBytes : List (Payload w) → List Byte
  | [] => []
  | payload :: payloads =>
      (payload.first.map (List.take payload.second)).getD [] ++ payloadBytes payloads

/-! ### Buffer operations -/

@[simp]
theorem length_resize (buffer : List Byte) (count : ℕ) :
    (resize buffer count).length = count := by
  simp only [resize, List.length_append, List.length_take, List.length_replicate]
  omega

theorem length_overwrite {buffer bytes : List Byte} {position : ℕ}
    (hfit : position + bytes.length ≤ buffer.length) :
    (overwrite buffer position bytes).length = buffer.length := by
  simp only [overwrite, List.length_append, List.length_take, List.length_drop]
  omega

theorem take_overwrite {buffer bytes : List Byte} {start position : ℕ}
    (hstart : start ≤ position) (hposition : position ≤ buffer.length) :
    (overwrite buffer position bytes).take start = buffer.take start := by
  rw [overwrite, List.append_assoc, List.take_append_of_le_length (by simp; omega),
    List.take_take, min_eq_left hstart]

theorem overwrite_nil (buffer : List Byte) (position : ℕ) :
    overwrite buffer position [] = buffer := by
  simp [overwrite]

theorem overwrite_overwrite {buffer first second : List Byte} {position : ℕ}
    (hfit : position + first.length + second.length ≤ buffer.length) :
    overwrite (overwrite buffer position first) (position + first.length) second =
      overwrite buffer position (first ++ second) := by
  have hhead : (buffer.take position ++ first).length = position + first.length := by
    simp only [List.length_append, List.length_take]; omega
  unfold overwrite
  rw [List.take_left' hhead, ← hhead, List.drop_append, List.drop_drop, hhead]
  simp only [List.append_assoc, List.length_append, Nat.add_assoc, Nat.add_comm second.length]

/-- Stores at consecutive positions are one store of the bytes joined. -/
theorem overwrite_overwrite_at {buffer first second : List Byte} {position next : ℕ}
    (hnext : next = position + first.length)
    (hfit : position + first.length + second.length ≤ buffer.length) :
    overwrite (overwrite buffer position first) next second =
      overwrite buffer position (first ++ second) := by
  subst hnext
  exact overwrite_overwrite hfit

theorem store_eq {buffer bytes : List Byte} {position : ℕ}
    (hfit : position + bytes.length ≤ buffer.length) :
    store buffer position bytes = some (overwrite buffer position bytes) := if_pos hfit

theorem fillHeader_eq {buffer : List Byte} (entire : ℕ)
    (hlength : sizeofTcpHeader ≤ buffer.length) :
    fillHeader buffer entire = some (toLE 2 sizeofTcpHeader ++
      [MessageContentType.regularPayload.toByte, 0] ++ toLE 8 entire ++ buffer.drop 12) := by
  rw [fillHeader, if_pos hlength]
  simp only [headerSizeOffset, typeOffset, reservedOffset, dataSizeOffset]
  rw [@overwrite_overwrite_at buffer, @overwrite_overwrite_at buffer, @overwrite_overwrite_at buffer]
  · simp [overwrite, length_toLE]
  all_goals simp only [List.length_append, length_toLE, List.length_singleton]
  all_goals unfold sizeofTcpHeader at hlength; omega

theorem readHeader_header (headerSize dataSize : ℕ) (type reserved : Byte)
    (rest : List Byte) :
    readHeader (toLE 2 headerSize ++ [type, reserved] ++ toLE 8 dataSize ++ rest) =
      ⟨headerSize % 256 ^ 2, type, reserved, dataSize % 256 ^ 8⟩ := by
  have hfields : toLE 2 headerSize ++ [type, reserved] ++ toLE 8 dataSize ++ rest =
      toLE 2 headerSize ++ [type, reserved] ++ (toLE 8 dataSize ++ rest) := by
    simp only [List.append_assoc]
  have hfront : (toLE 2 headerSize ++ [type, reserved]).length = 4 := by simp
  rw [hfields]
  simp only [readHeader, headerSizeOffset, typeOffset, reservedOffset, dataSizeOffset]
  rw [List.drop_zero, List.append_assoc, List.take_left' (length_toLE 2 _), ofLE_toLE,
    ← List.append_assoc, List.drop_left' hfront, List.take_left' (length_toLE 8 _), ofLE_toLE]
  simp [toLE]

/-! ### The size loop and the copy loop -/

@[simp]
theorem totalLength_nil : totalLength ([] : List (Payload w)) = 0 := rfl

@[simp]
theorem totalLength_cons (payload : Payload w) (payloads : List (Payload w)) :
    totalLength (payload :: payloads) = payload.second + totalLength payloads := by
  simp [totalLength]

theorem SizeTWidth.pow_bits_le (w : SizeTWidth) : 2 ^ w.bits ≤ 256 ^ 8 := by
  cases w <;> norm_num [SizeTWidth.bits]

/-- The size loop computes the true total modulo `2 ^ w`. -/
theorem entirePayloadSize_eq (payloads : List (Payload w)) :
    entirePayloadSize w payloads = totalLength payloads % 2 ^ w.bits := by
  suffices h : ∀ size, payloads.foldl (fun size payload => (size + payload.second) % 2 ^ w.bits)
      (size % 2 ^ w.bits) = (size + totalLength payloads) % 2 ^ w.bits by
    simpa using h 0
  induction payloads with
  | nil => intro size; simp
  | cons payload payloads ih =>
      intro size
      rw [List.foldl_cons, Nat.mod_add_mod, ih, totalLength_cons, Nat.add_assoc]

theorem entirePayloadSize_lt (payloads : List (Payload w)) :
    entirePayloadSize w payloads < 2 ^ w.bits := by
  rw [entirePayloadSize_eq]
  exact Nat.mod_lt _ (Nat.two_pow_pos _)

/-- An entry the copy loop skips has length zero. -/
def Copyable (payloads : List (Payload w)) : Prop :=
  ∀ payload ∈ payloads, 0 < payload.second → payload.first.isSome

theorem Copyable.tail {payload : Payload w} {payloads : List (Payload w)}
    (hcopy : Copyable (payload :: payloads)) : Copyable payloads :=
  fun p hp => hcopy p (List.mem_cons_of_mem _ hp)

theorem Copyable.second_eq_zero {payload : Payload w} {payloads : List (Payload w)}
    (hcopy : Copyable (payload :: payloads)) (hnull : payload.first = none) :
    payload.second = 0 := by
  by_contra hpos
  simpa [hnull] using hcopy payload (List.mem_cons_self _ _) (Nat.pos_of_ne_zero hpos)

theorem length_take_second {payload : Payload w} {bytes : List Byte}
    (hfirst : payload.first = some bytes) : (bytes.take payload.second).length = payload.second := by
  simp [payload.second_le bytes hfirst]

theorem length_payloadBytes {payloads : List (Payload w)} (hcopy : Copyable payloads) :
    (payloadBytes payloads).length = totalLength payloads := by
  induction payloads with
  | nil => rfl
  | cons payload payloads ih =>
      rw [payloadBytes, List.length_append, ih hcopy.tail, totalLength_cons]
      cases hfirst : payload.first with
      | none => simp [hcopy.second_eq_zero hfirst]
      | some bytes => simp [length_take_second hfirst]

/-- The copy loop's invariant: the cursor is the start plus the lengths already copied, so the
loop writes the payload bytes right after the header. -/
theorem copyPayloads_eq {payloads : List (Payload w)} (hcopy : Copyable payloads) :
    ∀ (buffer : List Byte) (position : ℕ), position + totalLength payloads ≤ buffer.length →
      buffer.length < 2 ^ w.bits →
      copyPayloads w buffer position payloads =
        some (overwrite buffer position (payloadBytes payloads)) := by
  induction payloads with
  | nil => intro buffer position _ _; simp [copyPayloads, payloadBytes, overwrite_nil]
  | cons payload payloads ih =>
      intro buffer position hfit hlength
      have hrest := ih hcopy.tail
      rw [totalLength_cons] at hfit
      have hbytes := length_payloadBytes hcopy.tail
      cases hfirst : payload.first with
      | none =>
          have hzero := hcopy.second_eq_zero hfirst
          simp only [copyPayloads, hfirst, payloadBytes, Option.map_none', Option.getD_none,
            List.nil_append]
          exact hrest buffer position (by omega) hlength
      | some bytes =>
          have htake := length_take_second hfirst
          by_cases hpos : 0 < payload.second
          · have hstored : (overwrite buffer position (bytes.take payload.second)).length =
                buffer.length := length_overwrite (by omega)
            simp only [copyPayloads, hfirst, if_pos hpos, store_eq (show position +
              (bytes.take payload.second).length ≤ buffer.length by omega), Option.some_bind,
              Nat.mod_eq_of_lt (show position + payload.second < 2 ^ w.bits by omega)]
            have hcursor : position + payload.second =
                position + (bytes.take payload.second).length := by rw [htake]
            rw [hrest _ _ (by omega) (by omega), hcursor,
              overwrite_overwrite (by omega)]
            simp [payloadBytes, hfirst]
          · have hzero : payload.second = 0 := by omega
            simp only [copyPayloads, hfirst, if_neg hpos, payloadBytes, Option.map_some',
              Option.getD_some, hzero, List.take_zero, List.nil_append]
            exact hrest buffer position (by omega) hlength

/-- Whatever the payloads, the copy loop keeps the vector's size and writes only from its
start position on. -/
theorem copyPayloads_frame (payloads : List (Payload w)) :
    ∀ (buffer frame : List Byte) (position : ℕ),
      copyPayloads w buffer position payloads = some frame → buffer.length < 2 ^ w.bits →
      frame.length = buffer.length ∧ frame.take position = buffer.take position := by
  induction payloads with
  | nil => intro buffer frame position hcopy _; simp_all [copyPayloads]
  | cons payload payloads ih =>
      intro buffer frame position hcopy hlength
      cases hfirst : payload.first with
      | none =>
          simp only [copyPayloads, hfirst] at hcopy
          exact ih buffer frame position hcopy hlength
      | some bytes =>
          by_cases hpos : 0 < payload.second
          · simp only [copyPayloads, hfirst, if_pos hpos, store] at hcopy
            split at hcopy
            · rename_i hfit
              simp only [Option.some_bind] at hcopy
              have hstored := length_overwrite hfit
              rw [length_take_second hfirst] at hfit
              rw [Nat.mod_eq_of_lt (by omega)] at hcopy
              obtain ⟨hsize, hhead⟩ := ih _ frame _ hcopy (by omega)
              refine ⟨by rw [hsize, hstored], ?_⟩
              calc frame.take position
                  = (frame.take (position + payload.second)).take position := by
                    rw [List.take_take, min_eq_left (by omega)]
                _ = (overwrite buffer position (bytes.take payload.second)).take position := by
                    rw [hhead, List.take_take, min_eq_left (by omega)]
                _ = buffer.take position := take_overwrite le_rfl (by omega)
            · simp at hcopy
          · simp only [copyPayloads, hfirst, if_neg hpos] at hcopy
            exact ih buffer frame position hcopy hlength

/-! ### Sizing the buffer -/

theorem reserve_bytes {buffer reserved : PoolBuffer} {count : ℕ}
    (hreserve : reserve w buffer count = some reserved) : reserved.bytes = buffer.bytes := by
  unfold reserve at hreserve
  split_ifs at hreserve
  cases hreserve
  rfl

theorem PoolBuffer.resize_bytes {buffer resized : PoolBuffer} {count : ℕ}
    (hresize : buffer.resize w count = some resized) :
    resized.bytes = Send.resize buffer.bytes count := by
  unfold PoolBuffer.resize at hresize
  split_ifs at hresize <;> cases hresize <;> rfl

/-- Sizing changes the bytes only as `resize` does; `reserve` touches the capacity alone. -/
theorem sizeBuffer_bytes {buffer sized : PoolBuffer} {count : ℕ}
    (hsized : sizeBuffer w buffer count = some sized) :
    sized.bytes = resize buffer.bytes count := by
  obtain ⟨reserved, hreserved, hresized⟩ := Option.bind_eq_some.mp hsized
  rw [PoolBuffer.resize_bytes hresized]
  split at hreserved
  · obtain ⟨_, -, hreserve⟩ := Option.bind_eq_some.mp hreserved
    rw [reserve_bytes hreserve]
  · cases hreserved; rfl

/-- The fill reads only the resized bytes: sizing decides whether there is a frame, never what
it holds. -/
theorem sendBuffer_eq (payloads : List (Payload w)) (buffer : PoolBuffer) :
    sendBuffer w payloads buffer =
      (sizeBuffer w buffer ((sizeofTcpHeader + entirePayloadSize w payloads) % 2 ^ w.bits)).bind
        fun sized => (fillBuffer w payloads (resize buffer.bytes
          ((sizeofTcpHeader + entirePayloadSize w payloads) % 2 ^ w.bits))).map
            fun bytes => { sized with bytes := bytes } :=
  Option.bind_congr fun _ hsized => by rw [sizeBuffer_bytes hsized]

/-- The shift found brings `x` below `2 ^ p`, and no smaller shift would. -/
theorem shiftBelow_spec (p : ℕ) : ∀ fuel x, x < 2 ^ (p + fuel) →
    x / 2 ^ shiftBelow p fuel x < 2 ^ p ∧
      (0 < shiftBelow p fuel x → 2 ^ (p + shiftBelow p fuel x - 1) ≤ x)
  | 0, x, hx => by simpa [shiftBelow] using hx
  | fuel + 1, x, hx => by
      unfold shiftBelow
      split_ifs with hsmall
      · simpa using hsmall
      · have hhalf : x / 2 < 2 ^ (p + fuel) := by
          rw [Nat.div_lt_iff_lt_mul (by norm_num), ← pow_succ]
          exact hx
        obtain ⟨hlt, hge⟩ := shiftBelow_spec p fuel (x / 2) hhalf
        refine ⟨by rwa [pow_succ, mul_comm, ← Nat.div_div_eq_div_mul], fun _ => ?_⟩
        rcases Nat.eq_zero_or_pos (shiftBelow p fuel (x / 2)) with hzero | hpos
        · rw [hzero]
          simpa using hsmall
        · calc 2 ^ (p + (shiftBelow p fuel (x / 2) + 1) - 1)
              = 2 ^ (p + shiftBelow p fuel (x / 2) - 1) * 2 := by
                rw [← pow_succ]; congr 1; omega
            _ ≤ x / 2 * 2 := Nat.mul_le_mul_right 2 (hge hpos)
            _ ≤ x := Nat.div_mul_le_self x 2

/-- Rounding to nearest moves `x` by at most half a unit of the last place it keeps. -/
theorem roundToPrecision_near (p x : ℕ) :
    roundToPrecision p x ≤ x + 2 ^ shiftBelow p 128 x / 2 ∧
      x ≤ roundToPrecision p x + 2 ^ shiftBelow p 128 x / 2 := by
  have hunit : 0 < 2 ^ shiftBelow p 128 x := Nat.two_pow_pos _
  dsimp only [roundToPrecision]
  generalize 2 ^ shiftBelow p 128 x = unit at hunit ⊢
  have hsplit := Nat.div_add_mod x unit
  have hmod := Nat.mod_lt x hunit
  split_ifs with hround
  · have hup : (x / unit + 1) * unit = unit * (x / unit) + unit := by ring
    rw [hup]
    omega
  · rw [mul_comm]
    omega

/-- Rounding to `p` significant bits is exact to a relative `2 ^ (-p)`. -/
theorem roundToPrecision_bounds {p x : ℕ} (hx : x < 2 ^ (p + 128)) :
    2 ^ p * roundToPrecision p x ≤ (2 ^ p + 1) * x ∧
      (2 ^ p - 1) * x ≤ 2 ^ p * roundToPrecision p x := by
  obtain ⟨hup, hdown⟩ := roundToPrecision_near p x
  have hhalf : 2 ^ p * (2 ^ shiftBelow p 128 x / 2) ≤ x := by
    rcases Nat.eq_zero_or_pos (shiftBelow p 128 x) with hzero | hpos
    · simp [hzero]
    · calc 2 ^ p * (2 ^ shiftBelow p 128 x / 2)
          = 2 ^ (p + shiftBelow p 128 x - 1) := by
            rw [show p + shiftBelow p 128 x - 1 = p + (shiftBelow p 128 x - 1) by omega,
              pow_add, Nat.pow_div hpos (by norm_num)]
        _ ≤ x := (shiftBelow_spec p 128 x hx).2 hpos
  generalize roundToPrecision p x = rounded at hup hdown
  generalize 2 ^ shiftBelow p 128 x / 2 = half at hup hdown hhalf
  have hup' := Nat.mul_le_mul_left (2 ^ p) hup
  have hdown' := Nat.mul_le_mul_left (2 ^ p) hdown
  rw [mul_add] at hup' hdown'
  constructor
  · rw [add_mul, one_mul]
    omega
  · rw [Nat.sub_mul, one_mul]
    omega

/-- The reserve count is never below `complete_size`, and exceeds it by a tenth up to a relative
error below `2 ^ (-48)`. -/
theorem tenPercentMore_bounds {n : ℕ} (hn : n < 2 ^ 64) :
    n ≤ tenPercentMore n ∧ 2 ^ 48 * (10 * tenPercentMore n) ≤ (2 ^ 48 * 11 + 1) * n ∧
      (2 ^ 49 * 11 - 1) * n < 2 ^ 49 * (10 * (tenPercentMore n + 1)) := by
  obtain ⟨hA₁, hA₂⟩ := @roundToPrecision_bounds 53 n (by omega)
  unfold tenPercentMore
  generalize roundToPrecision 53 n = converted at hA₁ hA₂ ⊢
  have hproduct : converted * doubleOnePointOne < 2 ^ (53 + 128) := by
    unfold doubleOnePointOne; omega
  obtain ⟨hB₁, hB₂⟩ := roundToPrecision_bounds hproduct
  generalize roundToPrecision 53 (converted * doubleOnePointOne) = rounded at hB₁ hB₂ ⊢
  have hfloor : rounded / 2 ^ 52 * 2 ^ 52 ≤ rounded := Nat.div_mul_le_self rounded (2 ^ 52)
  have hceil : rounded < rounded / 2 ^ 52 * 2 ^ 52 + 2 ^ 52 := Nat.lt_div_mul_add (by norm_num)
  generalize rounded / 2 ^ 52 = count at hfloor hceil ⊢
  -- the two roundings compose: `rounded` is within a relative `2 ^ (-52)` of `n` times `1.1`
  unfold doubleOnePointOne at *
  refine ⟨by omega, by omega, by omega⟩

theorem maxSize_lt (w : SizeTWidth) : maxSize w < 2 ^ w.bits := by
  cases w <;> decide

/-- Sizing the pool buffer, for every `complete_size` of `size_t`: in place when it fits the
capacity; otherwise a reserve of `complete_size * 1.1`, which throws past `max_size()` and
otherwise leaves room enough that `resize` never reallocates.  The reserve count lies within a
relative `2 ^ (-48)` of a tenth more than `complete_size`, so whether `send` throws for a frame
between `max_size() / 1.1` and `max_size()` depends on the capacity the pool's buffer kept. -/
theorem sizeBuffer_reserves (buffer : PoolBuffer) {n : ℕ} (hn : n < 2 ^ w.bits) :
    sizeBuffer w buffer n =
      (if n ≤ buffer.capacity then some ⟨resize buffer.bytes n, buffer.capacity⟩
      else if maxSize w < tenPercentMore n then none
      else some ⟨resize buffer.bytes n, tenPercentMore n⟩) ∧
    n ≤ tenPercentMore n ∧ 2 ^ 48 * (10 * tenPercentMore n) ≤ (2 ^ 48 * 11 + 1) * n ∧
      (2 ^ 49 * 11 - 1) * n < 2 ^ 49 * (10 * (tenPercentMore n + 1)) := by
  have hbounds := @tenPercentMore_bounds n (by have := w.pow_bits_le; omega)
  refine ⟨?_, hbounds⟩
  have hmax := maxSize_lt w
  unfold sizeBuffer
  by_cases hfits : n ≤ buffer.capacity
  · rw [if_neg (by omega), if_pos hfits, Option.some_bind]
    simp [PoolBuffer.resize, hfits]
  · rw [if_pos (by omega), if_neg hfits]
    unfold reserveSize
    by_cases hthrows : maxSize w < tenPercentMore n
    · rw [if_pos hthrows]
      split_ifs <;> simp [reserve, hthrows]
    · rw [if_neg hthrows, if_pos (by omega), Option.some_bind]
      simp only [reserve, if_neg hthrows, Option.some_bind, PoolBuffer.resize,
        max_eq_right (show buffer.capacity ≤ tenPercentMore n by omega), if_pos hbounds.1]

/-- A frame of two billion bytes on a 32-bit target: a fresh buffer throws, while the buffer
recycled after a frame of 1.9 billion bytes has the capacity for it. -/
theorem sizeBuffer_reserves_pool_history :
    1900000000 < 2 ^ SizeTWidth.bits32.bits ∧ 2000000000 < 2 ^ SizeTWidth.bits32.bits ∧
      sizeBuffer .bits32 .fresh 2000000000 = none ∧
      ((sizeBuffer .bits32 .fresh 1900000000).bind fun recycled =>
        sizeBuffer .bits32 recycled 2000000000).isSome := by
  have hearlier : 1900000000 < 2 ^ SizeTWidth.bits32.bits := by norm_num [SizeTWidth.bits]
  have hn : 2000000000 < 2 ^ SizeTWidth.bits32.bits := by norm_num [SizeTWidth.bits]
  refine ⟨hearlier, hn, ?_, ?_⟩
  · rw [(sizeBuffer_reserves .fresh hn).1, if_neg (by decide), if_pos (by decide)]
  · rw [(sizeBuffer_reserves .fresh hearlier).1, if_neg (by decide), if_neg (by decide),
      Option.some_bind, (sizeBuffer_reserves _ hn).1, if_pos (by decide)]
    rfl

/-! ### The frame -/

/-- Every frame the fill writes into bytes sized as `send` sizes them is well formed: its header
declares the header record and the size loop's total, and the frame is that long.  A `size_t`
wrap that would make it shorter leaves no room for the header, which is undefined behaviour. -/
theorem fillBuffer_wellFormed {payloads : List (Payload w)} {bytes frame : List Byte}
    (hlength : bytes.length = (sizeofTcpHeader + entirePayloadSize w payloads) % 2 ^ w.bits)
    (hfill : fillBuffer w payloads bytes = some frame) :
    readHeader frame = ⟨sizeofTcpHeader, MessageContentType.regularPayload.toByte, 0,
      entirePayloadSize w payloads⟩ ∧ WellFormed frame := by
  obtain ⟨header, hheader, hcopy⟩ := Option.bind_eq_some.mp hfill
  have hentire := entirePayloadSize_lt payloads
  generalize entirePayloadSize w payloads = entire at hlength hheader hentire ⊢
  have hroom : sizeofTcpHeader ≤ bytes.length := by
    by_contra hshort
    simp [fillHeader, hshort] at hheader
  have hcomplete : bytes.length = sizeofTcpHeader + entire := by
    rw [hlength] at hroom ⊢
    apply Nat.mod_eq_of_lt
    by_contra hwrap
    rw [Nat.mod_eq_sub_mod (by omega), Nat.mod_eq_of_lt (by omega)] at hroom
    omega
  rw [fillHeader_eq _ hroom, Option.some.injEq] at hheader
  subst hheader
  have hfields : readHeader (toLE 2 sizeofTcpHeader ++ [MessageContentType.regularPayload.toByte, 0] ++
      toLE 8 entire ++ bytes.drop 12) =
      ⟨sizeofTcpHeader, MessageContentType.regularPayload.toByte, 0, entire⟩ := by
    rw [readHeader_header, Nat.mod_eq_of_lt (by norm_num [sizeofTcpHeader]),
      Nat.mod_eq_of_lt (by have := w.pow_bits_le; omega)]
  obtain ⟨hframe, hhead⟩ := copyPayloads_frame payloads _ frame _ hcopy
    (by simp [sizeofTcpHeader] at hcomplete ⊢; omega)
  simp only [List.length_append, length_toLE, List.length_cons, List.length_nil, List.length_drop,
    hcomplete, sizeofTcpHeader] at hframe
  have hread : readHeader frame = ⟨sizeofTcpHeader, MessageContentType.regularPayload.toByte, 0,
      entire⟩ := by
    rw [← readHeader_take sizeofTcpHeader (by simp [sizeofTcpHeader]) (by omega), hhead,
      readHeader_take _ (by simp [sizeofTcpHeader])
        (by simp only [List.length_append, length_toLE, List.length_cons, List.length_nil,
          List.length_drop, hcomplete, sizeofTcpHeader]; omega), hfields]
  exact ⟨hread, by simp [hread], by simp [hread, sizeofTcpHeader]; omega⟩

/-- A one-byte message, and a list whose only entry is a null pointer of length one. -/
def earlierPayloads : List (Payload .bits64) :=
  [⟨some [7], 1, by norm_num [SizeTWidth.bits], by simp⟩]

def nullPayloads : List (Payload .bits64) :=
  [⟨none, 1, by norm_num [SizeTWidth.bits], by simp⟩]

/-- The size loop counts the null entry and the copy loop skips it: from a fresh buffer its byte
is `0`, from the buffer recycled after the earlier message it is that message's byte `7`. -/
theorem sendBuffer_nullPayloads_keeps_recycled_byte :
    (sendBuffer .bits64 nullPayloads .fresh).map (·.bytes.getD sizeofTcpHeader 0) = some 0 ∧
      ((sendBuffer .bits64 earlierPayloads .fresh).bind (sendBuffer .bits64 nullPayloads)).map
        (·.bytes.getD sizeofTcpHeader 0) = some 7 := by
  decide

/-- A 256 MiB block on a 32-bit target. -/
def block256MiB : Payload .bits32 :=
  ⟨some (List.replicate (2 ^ 28) 0), 2 ^ 28, by norm_num [SizeTWidth.bits], by
    intro bytes hbytes
    simp only [Option.mem_def, Option.some.injEq] at hbytes
    rw [← hbytes, List.length_replicate]⟩

theorem block256MiB_first : block256MiB.first = some (List.replicate (2 ^ 28) 0) := rfl

theorem block256MiB_second : block256MiB.second = 2 ^ 28 := rfl

theorem totalLength_block256MiB : totalLength (List.replicate 16 block256MiB) = 2 ^ 32 := by
  simp only [totalLength, List.map_replicate, List.sum_replicate, block256MiB_second]
  norm_num

theorem entirePayloadSize_block256MiB :
    entirePayloadSize .bits32 (List.replicate 16 block256MiB) = 0 := by
  rw [entirePayloadSize_eq, totalLength_block256MiB]
  norm_num [SizeTWidth.bits]

/-- The block listed sixteen times: the lengths add up to `2 ^ 32`, the size loop wraps to `0`,
whatever pool buffer `send` gets is resized to the header alone, and the first `memcpy` runs past
its end. -/
theorem sendBuffer_wrapping_total_overruns :
    totalLength (List.replicate 16 block256MiB) = 2 ^ 32 ∧
      ∀ buffer, sendBuffer .bits32 (List.replicate 16 block256MiB) buffer = none := by
  refine ⟨totalLength_block256MiB, fun buffer => ?_⟩
  have hoverrun : ¬ sizeofTcpHeader +
      (List.take (2 ^ 28) (List.replicate (2 ^ 28) (0 : Byte))).length ≤
      (toLE 2 sizeofTcpHeader ++ [MessageContentType.regularPayload.toByte, 0] ++ toLE 8 0 ++
        List.drop 12 (resize buffer.bytes
          ((sizeofTcpHeader + 0) % 2 ^ SizeTWidth.bits32.bits))).length := by
    rw [List.length_take, List.length_replicate]
    simp only [List.length_append, length_toLE, List.length_cons, List.length_nil,
      List.length_drop, length_resize]
    norm_num [sizeofTcpHeader, SizeTWidth.bits]
  rw [sendBuffer_eq, fillBuffer, entirePayloadSize_block256MiB,
    fillHeader_eq _ (by simp [sizeofTcpHeader, SizeTWidth.bits]), Option.some_bind,
    List.replicate_succ, copyPayloads, block256MiB_first, block256MiB_second]
  dsimp only
  rw [if_pos (by norm_num), store, if_neg hoverrun, Option.none_bind]
  simp

/-! ### The size computation -/

/-- `sizeof(TcpHeader) + Σ` on `size_t` is the true size of the frame exactly when the true size
fits in `size_t`. -/
theorem completeSize_eq_iff (payloads : List (Payload w)) :
    (sizeofTcpHeader + entirePayloadSize w payloads) % 2 ^ w.bits =
        sizeofTcpHeader + totalLength payloads ↔
      sizeofTcpHeader + totalLength payloads < 2 ^ w.bits := by
  rw [entirePayloadSize_eq, Nat.add_mod_mod]
  exact Nat.mod_eq_iff_lt (Nat.two_pow_pos _).ne'

/-- On a 32-bit target the block listed sixteen times adds up to `2 ^ 32`: `complete_size`
wraps to the header size, so whatever pool buffer `send` gets is resized to the header alone,
and the first `memcpy`, of `2 ^ 28` bytes at `current_position = sizeof(TcpHeader)`, ends past
its end. -/
theorem completeSize_wraps_first_memcpy_past_end :
    sizeofTcpHeader + totalLength (List.replicate 16 block256MiB) = sizeofTcpHeader + 2 ^ 32 ∧
      (sizeofTcpHeader + entirePayloadSize .bits32 (List.replicate 16 block256MiB)) %
        2 ^ SizeTWidth.bits32.bits = sizeofTcpHeader ∧
      ∀ buffer, (resize buffer ((sizeofTcpHeader +
        entirePayloadSize .bits32 (List.replicate 16 block256MiB)) %
          2 ^ SizeTWidth.bits32.bits)).length < sizeofTcpHeader + block256MiB.second := by
  have hcomplete : (sizeofTcpHeader + entirePayloadSize .bits32 (List.replicate 16 block256MiB)) %
      2 ^ SizeTWidth.bits32.bits = sizeofTcpHeader := by
    rw [entirePayloadSize_block256MiB]
    norm_num [sizeofTcpHeader, SizeTWidth.bits]
  refine ⟨by rw [totalLength_block256MiB], hcomplete, fun buffer => ?_⟩
  rw [length_resize, hcomplete, block256MiB_second]
  norm_num

/-! ### Every payload list -/

/-- The entry as the copy loop reads it: a null pointer is skipped whatever its length, as an
empty entry is. -/
def Payload.copied (payload : Payload w) : Payload w :=
  match payload.first with
  | some _ => payload
  | none => ⟨none, 0, Nat.two_pow_pos _, by simp⟩

/-- The lengths the size loop counts and the copy loop skips: those of null entries. -/
def skippedLength (payloads : List (Payload w)) : ℕ :=
  ((payloads.filter fun payload => payload.first.isNone).map Payload.second).sum

theorem copyPayloads_copied (payloads : List (Payload w)) :
    ∀ (buffer : List Byte) (position : ℕ),
      copyPayloads w buffer position (payloads.map Payload.copied) =
        copyPayloads w buffer position payloads := by
  induction payloads with
  | nil => intro buffer position; rfl
  | cons payload payloads ih =>
      intro buffer position
      cases hfirst : payload.first with
      | none => simp [copyPayloads, Payload.copied, hfirst, ih]
      | some bytes => simp [copyPayloads, Payload.copied, hfirst, ih]

theorem payloadBytes_copied (payloads : List (Payload w)) :
    payloadBytes (payloads.map Payload.copied) = payloadBytes payloads := by
  induction payloads with
  | nil => rfl
  | cons payload payloads ih =>
      cases hfirst : payload.first <;> simp [payloadBytes, Payload.copied, hfirst, ih]

theorem copyable_copied (payloads : List (Payload w)) :
    Copyable (payloads.map Payload.copied) := by
  intro payload hpayload hpos
  obtain ⟨original, -, rfl⟩ := List.mem_map.mp hpayload
  cases hfirst : original.first <;> simp_all [Payload.copied]

theorem length_payloadBytes_add_skipped (payloads : List (Payload w)) :
    (payloadBytes payloads).length + skippedLength payloads = totalLength payloads := by
  induction payloads with
  | nil => rfl
  | cons payload payloads ih =>
      rw [totalLength_cons, ← ih]
      cases hfirst : payload.first with
      | none => simp [payloadBytes, skippedLength, hfirst, List.filter_cons]; omega
      | some bytes =>
          simp [payloadBytes, skippedLength, hfirst, List.filter_cons, length_take_second hfirst]
          omega

/-- The copy loop on any payload list: it writes the bytes of the entries it copies, in order,
from the start position on. -/
theorem copyPayloads_eq_payloadBytes (payloads : List (Payload w)) (buffer : List Byte)
    (position : ℕ) (hfit : position + (payloadBytes payloads).length ≤ buffer.length)
    (hlength : buffer.length < 2 ^ w.bits) :
    copyPayloads w buffer position payloads =
      some (overwrite buffer position (payloadBytes payloads)) := by
  have htotal : totalLength (payloads.map Payload.copied) = (payloadBytes payloads).length := by
    rw [← length_payloadBytes (copyable_copied payloads), payloadBytes_copied]
  rw [← copyPayloads_copied, copyPayloads_eq (copyable_copied payloads) buffer position
    (htotal ▸ hfit) hlength, payloadBytes_copied]

theorem completeSize_eq_of_lt {payloads : List (Payload w)}
    (hfit : sizeofTcpHeader + totalLength payloads < 2 ^ w.bits) :
    (sizeofTcpHeader + entirePayloadSize w payloads) % 2 ^ w.bits =
      sizeofTcpHeader + totalLength payloads := by
  rw [entirePayloadSize_eq, Nat.add_mod_mod, Nat.mod_eq_of_lt hfit]

/-- The fill on any payload list whose frame size fits in `size_t`: the twelve header bytes, the
four header bytes after `data_size` left from the buffer, the copied entries, and a tail left
from the buffer as long as the skipped entries. -/
theorem fillBuffer_eq_stale (bytes : List Byte) (payloads : List (Payload w))
    (hfit : sizeofTcpHeader + totalLength payloads < 2 ^ w.bits) :
    fillBuffer w payloads (resize bytes (sizeofTcpHeader + totalLength payloads)) =
      some (toLE 2 sizeofTcpHeader ++ [MessageContentType.regularPayload.toByte, 0] ++
        toLE 8 (totalLength payloads) ++
        ((resize bytes (sizeofTcpHeader + totalLength payloads)).drop 12).take 4 ++
        payloadBytes payloads ++
        (resize bytes (sizeofTcpHeader + totalLength payloads)).drop
          (sizeofTcpHeader + (payloadBytes payloads).length)) := by
  have hcopied := length_payloadBytes_add_skipped payloads
  have hentire : entirePayloadSize w payloads = totalLength payloads := by
    rw [entirePayloadSize_eq, Nat.mod_eq_of_lt (by omega)]
  have hresized := length_resize bytes (sizeofTcpHeader + totalLength payloads)
  rw [fillBuffer, hentire, fillHeader_eq _ (by omega), Option.some_bind]
  generalize resize bytes (sizeofTcpHeader + totalLength payloads) = resized at hresized ⊢
  have hfields : (toLE 2 sizeofTcpHeader ++ [MessageContentType.regularPayload.toByte, 0] ++
      toLE 8 (totalLength payloads)).length = 12 := by simp [length_toLE]
  generalize toLE 2 sizeofTcpHeader ++ [MessageContentType.regularPayload.toByte, 0] ++
      toLE 8 (totalLength payloads) = fields at hfields ⊢
  have hframe : (fields ++ resized.drop 12).length = sizeofTcpHeader + totalLength payloads := by
    simp only [List.length_append, List.length_drop, hfields, hresized, sizeofTcpHeader]; omega
  rw [copyPayloads_eq_payloadBytes _ _ _ (by rw [hframe]; omega) (by rw [hframe]; exact hfit)]
  simp only [overwrite, List.take_append_eq_append_take, List.drop_append_eq_append_drop, hfields,
    List.length_drop, hresized, sizeofTcpHeader, List.drop_drop, List.append_assoc,
    List.take_of_length_le (show fields.length ≤ 16 by omega),
    List.drop_eq_nil_of_le (show fields.length ≤ 16 + (payloadBytes payloads).length by omega),
    List.nil_append, show 12 + (16 + (payloadBytes payloads).length - 12) =
      16 + (payloadBytes payloads).length by omega]

/-- For every payload list whose frame size fits in `size_t`, null entries of any length
included: `send` builds a frame exactly when sizing the pool buffer does not throw, and the
frame is the twelve header bytes `send` writes, the four header bytes after `data_size` left
from the pool buffer, the bytes of the copied entries in list order, and then, for the lengths
the size loop counted but the copy loop skipped, a tail left from the pool buffer (zeros past
its former size). -/
theorem sendBuffer_eq_stale (buffer : PoolBuffer) (payloads : List (Payload w))
    (hfit : sizeofTcpHeader + totalLength payloads < 2 ^ w.bits) :
    sendBuffer w payloads buffer =
      (sizeBuffer w buffer (sizeofTcpHeader + totalLength payloads)).map (fun sized =>
        { sized with bytes := (toLE 2 sizeofTcpHeader ++
          [MessageContentType.regularPayload.toByte, 0] ++ toLE 8 (totalLength payloads) ++
          ((resize buffer.bytes (sizeofTcpHeader + totalLength payloads)).drop 12).take 4 ++
          payloadBytes payloads ++
          (resize buffer.bytes (sizeofTcpHeader + totalLength payloads)).drop
            (sizeofTcpHeader + (payloadBytes payloads).length)) }) ∧
    (payloadBytes payloads).length + skippedLength payloads = totalLength payloads := by
  refine ⟨?_, length_payloadBytes_add_skipped payloads⟩
  rw [sendBuffer_eq, completeSize_eq_of_lt hfit, fillBuffer_eq_stale _ _ hfit, Option.map_eq_bind]
  rfl

/-- The buffer the one-byte message leaves in the pool. -/
def earlierBuffer : PoolBuffer := (sendBuffer .bits64 earlierPayloads .fresh).getD .fresh

/-- The null entry of length one, in the buffer the one-byte message left: the tail byte is
that message's. -/
theorem sendBuffer_eq_stale_recycled :
    sizeofTcpHeader + totalLength nullPayloads < 2 ^ SizeTWidth.bits64.bits ∧
      sendBuffer .bits64 nullPayloads earlierBuffer =
        (sizeBuffer .bits64 earlierBuffer (sizeofTcpHeader + totalLength nullPayloads)).map
          (fun sized => { sized with bytes := (toLE 2 sizeofTcpHeader ++
            [MessageContentType.regularPayload.toByte, 0] ++ toLE 8 (totalLength nullPayloads) ++
            ((resize earlierBuffer.bytes
              (sizeofTcpHeader + totalLength nullPayloads)).drop 12).take 4 ++
            payloadBytes nullPayloads ++
            (resize earlierBuffer.bytes (sizeofTcpHeader + totalLength nullPayloads)).drop
              (sizeofTcpHeader + (payloadBytes nullPayloads).length)) }) ∧
      (payloadBytes nullPayloads).length + skippedLength nullPayloads =
        totalLength nullPayloads :=
  have hfit : sizeofTcpHeader + totalLength nullPayloads < 2 ^ SizeTWidth.bits64.bits := by
    norm_num [sizeofTcpHeader, totalLength, nullPayloads, SizeTWidth.bits]
  ⟨hfit, sendBuffer_eq_stale earlierBuffer nullPayloads hfit⟩

/-- With no entry skipped, the frame is `sizeof(TcpHeader) + Σ` bytes: the header
`{16, RegularPayload, 0, Σ}`, then the payload bytes in list order. -/
theorem sendBuffer_frame {payloads : List (Payload w)} {buffer sized : PoolBuffer}
    (hfit : sizeofTcpHeader + totalLength payloads < 2 ^ w.bits) (hcopy : Copyable payloads)
    (hsized : sizeBuffer w buffer (sizeofTcpHeader + totalLength payloads) = some sized) :
    ∃ frame, sendBuffer w payloads buffer = some { sized with bytes := frame } ∧
      frame.length = sizeofTcpHeader + totalLength payloads ∧
      readHeader frame = ⟨sizeofTcpHeader, MessageContentType.regularPayload.toByte, 0,
        totalLength payloads⟩ ∧
      frame.drop sizeofTcpHeader = payloadBytes payloads := by
  have hcomplete := completeSize_eq_of_lt hfit
  have hresized := length_resize buffer.bytes (sizeofTcpHeader + totalLength payloads)
  have hfill := fillBuffer_eq_stale buffer.bytes payloads hfit
  have htail : (resize buffer.bytes (sizeofTcpHeader + totalLength payloads)).drop
      (sizeofTcpHeader + (payloadBytes payloads).length) = [] :=
    List.drop_eq_nil_of_le (by rw [hresized, length_payloadBytes hcopy])
  rw [htail, List.append_nil] at hfill
  obtain ⟨hread, hwell⟩ := fillBuffer_wellFormed (by rw [hresized, hcomplete]) hfill
  rw [entirePayloadSize_eq, Nat.mod_eq_of_lt (by omega)] at hread
  refine ⟨_, by rw [sendBuffer_eq, hcomplete, hsized, Option.some_bind, hfill]; rfl,
    by rw [hwell.length_eq, hread], hread, ?_⟩
  have hpad : (((resize buffer.bytes (sizeofTcpHeader + totalLength payloads)).drop 12).take 4).length
      = 4 := by
    rw [List.length_take, List.length_drop, hresized]
    unfold sizeofTcpHeader
    omega
  rw [List.drop_left' (by simp only [List.length_append, length_toLE, List.length_cons,
    List.length_nil, hpad]; rfl)]

end TcpPubsub.Send

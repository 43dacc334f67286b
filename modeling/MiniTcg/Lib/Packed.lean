import MiniTcg.Lib.Bytes

/-!
# Packed structures

A `Format` lays the values of a type out in a fixed number of bytes, as a packed
structure does. It carries its own laws: `get` inverts `put`, and a buffer that `get`
accepts is the one `put` writes. Formats are composed field by field.
-/
namespace MiniTcg

structure Format (α : Type*) where
  size : ℕ
  put : α → List UInt8
  get : List UInt8 → Option α
  put_length : ∀ a, (put a).length = size
  get_put : ∀ a, get (put a) = some a
  put_get : ∀ {bs a}, bs.length = size → get bs = some a → put a = bs

namespace Format

variable {α β : Type*}

/-- A number of `w` bytes, least significant first. -/
def number (w : ℕ) (toNat : α → ℕ) (ofNat : ℕ → α) (lt : ∀ a, toNat a < 256 ^ w)
    (left : ∀ a, ofNat (toNat a) = a) (right : ∀ n < 256 ^ w, toNat (ofNat n) = n) : Format α where
  size := w
  put a := (Bytes.encode w (toNat a)).reverse
  get bs := some (ofNat (Bytes.decode bs.reverse))
  put_length a := by rw [List.length_reverse, Bytes.encode_length]
  get_put a := by rw [List.reverse_reverse, Bytes.decode_encode (lt a), left]
  put_get := by
    rintro bs a hlen h
    have hlen' : bs.reverse.length = w := by rw [List.length_reverse, hlen]
    have hlt : Bytes.decode bs.reverse < 256 ^ w := by
      rw [← hlen']
      exact Bytes.decode_lt _
    rw [← Option.some.inj h, right _ hlt]
    conv_lhs => rw [← hlen', Bytes.encode_decode]
    exact List.reverse_reverse bs

/-- One field after the other. -/
def seq (f : Format α) (g : Format β) : Format (α × β) where
  size := f.size + g.size
  put p := f.put p.1 ++ g.put p.2
  get bs := (f.get (bs.take f.size)).bind fun a => (g.get (bs.drop f.size)).map fun b => (a, b)
  put_length p := by rw [List.length_append, f.put_length, g.put_length]
  get_put p := by
    have hlen := f.put_length p.1
    rw [List.take_left' hlen, List.drop_left' hlen, f.get_put, g.get_put]
    rfl
  put_get := by
    rintro bs ⟨a, b⟩ hlen h
    obtain ⟨a', ha, hb⟩ := Option.bind_eq_some_iff.mp h
    obtain ⟨b', hb', hp⟩ := Option.map_eq_some_iff.mp hb
    obtain ⟨rfl, rfl⟩ := Prod.mk.inj hp
    have htake : (bs.take f.size).length = f.size := List.length_take_of_le (by omega)
    have hdrop : (bs.drop f.size).length = g.size := by
      rw [List.length_drop]
      omega
    rw [f.put_get htake ha, g.put_get hdrop hb', List.take_append_drop]

/-- A type whose values are laid out as values of another. -/
def via (f : Format α) (view : β → α) (make : α → Option β) (left : ∀ b, make (view b) = some b)
    (right : ∀ {a b}, make a = some b → view b = a) : Format β where
  size := f.size
  put b := f.put (view b)
  get bs := (f.get bs).bind make
  put_length b := f.put_length _
  get_put b := by rw [f.get_put, Option.bind_some, left]
  put_get := by
    intro bs b hlen h
    obtain ⟨a, ha, hb⟩ := Option.bind_eq_some_iff.mp h
    rw [right hb, f.put_get hlen ha]

/-- So many equal fields, as a list. -/
def many (f : Format α) : (n : ℕ) → Format { l : List α // l.length = n }
  | 0 =>
    { size := 0
      put := fun _ => []
      get := fun _ => some ⟨[], rfl⟩
      put_length := fun _ => rfl
      get_put := fun l => congrArg some (Subtype.ext (List.length_eq_zero_iff.mp l.2).symm)
      put_get := fun hlen _ => (List.length_eq_zero_iff.mp hlen).symm }
  | n + 1 =>
    (seq f (many f n)).via
      (fun l => (l.1.head (List.ne_nil_of_length_eq_add_one l.2),
        ⟨l.1.tail, by rw [List.length_tail, l.2]; rfl⟩))
      (fun p => some ⟨p.1 :: p.2.1, by rw [List.length_cons, p.2.2]⟩)
      (fun l => congrArg some (Subtype.ext (List.cons_head_tail _)))
      (by
        rintro ⟨a, l⟩ b h
        obtain rfl := Option.some.inj h
        rfl)

def vector (f : Format α) (n : ℕ) : Format (Vector α n) :=
  (many f n).via (fun v => ⟨v.toList, Vector.length_toList⟩)
    (fun l => some ⟨l.1.toArray, by rw [List.size_toArray, l.2]⟩)
    (fun _ => rfl)
    (by
      rintro ⟨l, hl⟩ v h
      obtain rfl := Option.some.inj h
      rfl)

theorem many_size (f : Format α) (n : ℕ) : (many f n).size = n * f.size := by
  induction n with
  | zero => rw [Nat.zero_mul]; rfl
  | succ n ih =>
    show f.size + (many f n).size = (n + 1) * f.size
    rw [ih, Nat.succ_mul, Nat.add_comm]

theorem vector_size (f : Format α) (n : ℕ) : (vector f n).size = n * f.size := many_size f n

/-! ### Numbers of the machine -/

def u8 : Format UInt8 :=
  number 1 UInt8.toNat UInt8.ofNat UInt8.toNat_lt (fun _ => UInt8.ofNat_toNat)
    fun _ hn => UInt8.toNat_ofNat_of_lt' hn

def u16 : Format UInt16 :=
  number 2 UInt16.toNat UInt16.ofNat UInt16.toNat_lt (fun _ => UInt16.ofNat_toNat)
    fun _ hn => UInt16.toNat_ofNat_of_lt' hn

def u32 : Format UInt32 :=
  number 4 UInt32.toNat UInt32.ofNat UInt32.toNat_lt (fun _ => UInt32.ofNat_toNat)
    fun _ hn => UInt32.toNat_ofNat_of_lt' hn

def u64 : Format UInt64 :=
  number 8 UInt64.toNat UInt64.ofNat UInt64.toNat_lt (fun _ => UInt64.ofNat_toNat)
    fun _ hn => UInt64.toNat_ofNat_of_lt' hn

/-- Two's complement. -/
def i16 : Format Int16 :=
  u16.via Int16.toUInt16 (fun n => some n.toInt16) (fun _ => rfl) fun h => by
    rw [← Option.some.inj h]
    rfl

def i32 : Format Int32 :=
  u32.via Int32.toUInt32 (fun n => some n.toInt32) (fun _ => rfl) fun h => by
    rw [← Option.some.inj h]
    rfl

end Format

end MiniTcg

import MiniTcg.Lib.Narrow

/-!
# Cards, the game state and the hand

`card_def_t`, `state_t` and `hand_t` with the static card table. The fields of
`state_t` other than the log ring are collected in `Core`, so that "all fields
except `log_head` and `logs`" is the projection `State.toCore`.
-/
namespace MiniTcg.Game

/-- `card_type_t`. -/
inductive CardType
  | atk | heal | shield | buff | poison
  deriving DecidableEq, Repr

/-- The switch on the `uint8_t` type field; `none` is its default branch. -/
def CardType.ofByte (b : UInt8) : Option CardType :=
  if b = 1 then some .atk
  else if b = 2 then some .heal
  else if b = 3 then some .shield
  else if b = 4 then some .buff
  else if b = 5 then some .poison
  else none

/-- `card_def_t` without the fields no rule reads (`duration`, `name`). -/
structure CardDef where
  id : UInt16
  type : UInt8
  cost : UInt8
  value : Int16
  deriving DecidableEq, Repr

/-- `g_cards`. -/
def gCards : List CardDef :=
  [⟨100, 1, 1, 3⟩, ⟨101, 1, 2, 5⟩, ⟨102, 1, 3, 8⟩,
   ⟨200, 2, 2, 4⟩, ⟨201, 2, 3, 7⟩,
   ⟨300, 3, 1, 3⟩, ⟨301, 3, 2, 6⟩,
   ⟨400, 4, 1, 2⟩, ⟨401, 4, 2, 4⟩,
   ⟨500, 5, 2, 2⟩, ⟨501, 5, 3, 3⟩]

/-- `get_card_def`: the first table entry with this id, `none` for `NULL`. -/
def getCardDef (id : UInt16) : Option CardDef := gCards.find? (fun c => c.id == id)

/-- What every rule relies on about the table. -/
theorem gCards_sane : ∀ c ∈ gCards, c.id ≠ 0 ∧ 1 ≤ c.cost.toNat ∧ c.cost.toNat ≤ 3 ∧
    2 ≤ c.value.toInt ∧ c.value.toInt ≤ 8 ∧ (CardType.ofByte c.type).isSome := by decide

theorem getCardDef_mem {id : UInt16} {c : CardDef} (h : getCardDef id = some c) :
    c ∈ gCards ∧ c.id = id :=
  ⟨List.mem_of_find?_eq_some h, by simpa using List.find?_some h⟩

theorem getCardDef_zero : getCardDef 0 = none := by decide

/-- `phase_t`. -/
inductive Phase
  | draw | main | ending
  deriving DecidableEq, Repr

inductive Side
  | player | ai
  deriving DecidableEq, Repr

def Side.other : Side → Side
  | .player => .ai
  | .ai => .player

@[simp] theorem Side.other_other (x : Side) : x.other.other = x := by cases x <;> rfl

theorem Side.other_ne (x : Side) : x.other ≠ x := by cases x <;> decide

/-- `state_t` up to `ai_poison`. -/
structure Core where
  pHp : Int16
  aiHp : Int16
  turn : UInt8
  phase : Phase
  gameOver : UInt8
  winner : UInt8
  mana : UInt8
  maxMana : UInt8
  pShield : Int16
  aiShield : Int16
  pBuff : Int16
  aiBuff : Int16
  pPoison : UInt8
  aiPoison : UInt8
  deriving DecidableEq, Repr

def logLines : Nat := 6
def logLen : Nat := 64

/-- `state_t`. -/
structure State extends Core where
  logHead : UInt8
  logs : Vector (Vector UInt8 logLen) logLines
  deriving DecidableEq, Repr

/-- `memset(&st, 0, sizeof(st))`. -/
def State.zero : State where
  pHp := 0
  aiHp := 0
  turn := 0
  phase := .draw
  gameOver := 0
  winner := 0
  mana := 0
  maxMana := 0
  pShield := 0
  aiShield := 0
  pBuff := 0
  aiBuff := 0
  pPoison := 0
  aiPoison := 0
  logHead := 0
  logs := Vector.replicate logLines (Vector.replicate logLen 0)

/-- `hand_t`. -/
structure Hand where
  n : UInt8
  cardIds : Vector UInt16 8
  deriving DecidableEq, Repr

def Hand.zero : Hand := ⟨0, Vector.replicate 8 0⟩

/-- `hand->card_ids[i]`. Indices past the array are outside the model; they read
as the empty slot, and every index the server uses is shown to be inside. -/
def Hand.card (h : Hand) (i : Nat) : UInt16 := h.cardIds[i]?.getD 0

/-- `hand->card_ids[i] = 0`. -/
def Hand.clear (h : Hand) (i : Nat) : Hand := { h with cardIds := h.cardIds.setIfInBounds i 0 }

@[simp] theorem Hand.clear_n (h : Hand) (i : Nat) : (h.clear i).n = h.n := rfl

theorem Hand.card_clear (h : Hand) (i j : Nat) :
    (h.clear i).card j = if j = i then 0 else h.card j := by
  simp only [Hand.card, Hand.clear, Vector.getElem?_setIfInBounds]
  by_cases hj : j = i
  · subst hj
    by_cases hb : j < 8 <;> simp [hb]
  · simp [hj, Ne.symm hj]

@[simp] theorem Hand.card_clear_self (h : Hand) (i : Nat) : (h.clear i).card i = 0 := by
  simp [Hand.card_clear]

theorem Hand.card_past (h : Hand) {i : Nat} (hi : 8 ≤ i) : h.card i = 0 := by
  simp [Hand.card, hi]

@[ext] theorem Hand.ext_card {h h' : Hand} (hn : h.n = h'.n) (hc : ∀ i, h.card i = h'.card i) :
    h = h' := by
  obtain ⟨n, ids⟩ := h
  obtain ⟨n', ids'⟩ := h'
  obtain rfl : n = n' := hn
  congr 1
  apply Vector.ext
  intro i hi
  simpa [Hand.card, hi] using hc i

/-! ### The sides of a state

`handle_play_card` picks `self_*` and `enemy_*` pointers by `is_player`; a side
`x` reads its own fields through these and its enemy's through `x.other`. -/

def Core.hp (c : Core) : Side → Int16
  | .player => c.pHp
  | .ai => c.aiHp

def Core.shield (c : Core) : Side → Int16
  | .player => c.pShield
  | .ai => c.aiShield

def Core.buff (c : Core) : Side → Int16
  | .player => c.pBuff
  | .ai => c.aiBuff

def Core.poison (c : Core) : Side → UInt8
  | .player => c.pPoison
  | .ai => c.aiPoison

def Core.setHp (c : Core) (v : Int16) : Side → Core
  | .player => { c with pHp := v }
  | .ai => { c with aiHp := v }

def Core.setShield (c : Core) (v : Int16) : Side → Core
  | .player => { c with pShield := v }
  | .ai => { c with aiShield := v }

def Core.setBuff (c : Core) (v : Int16) : Side → Core
  | .player => { c with pBuff := v }
  | .ai => { c with aiBuff := v }

def Core.setPoison (c : Core) (v : UInt8) : Side → Core
  | .player => { c with pPoison := v }
  | .ai => { c with aiPoison := v }

/-- Assignments to fields outside the log. -/
def State.update (st : State) (f : Core → Core) : State := { st with toCore := f st.toCore }

@[simp] theorem State.update_toCore (st : State) (f : Core → Core) :
    (st.update f).toCore = f st.toCore := rfl

@[simp] theorem State.update_logHead (st : State) (f : Core → Core) :
    (st.update f).logHead = st.logHead := rfl

section Setters
variable (c : Core) (v : Int16) (w : UInt8) (x y : Side)

theorem Core.hp_setHp : (c.setHp v x).hp y = if y = x then v else c.hp y := by
  cases x <;> cases y <;> rfl
theorem Core.shield_setShield :
    (c.setShield v x).shield y = if y = x then v else c.shield y := by
  cases x <;> cases y <;> rfl
theorem Core.buff_setBuff : (c.setBuff v x).buff y = if y = x then v else c.buff y := by
  cases x <;> cases y <;> rfl
theorem Core.poison_setPoison :
    (c.setPoison w x).poison y = if y = x then w else c.poison y := by
  cases x <;> cases y <;> rfl

@[simp] theorem Core.hp_setShield : (c.setShield v x).hp y = c.hp y := by
  cases x <;> cases y <;> rfl
@[simp] theorem Core.hp_setBuff : (c.setBuff v x).hp y = c.hp y := by
  cases x <;> cases y <;> rfl
@[simp] theorem Core.hp_setPoison : (c.setPoison w x).hp y = c.hp y := by
  cases x <;> cases y <;> rfl
@[simp] theorem Core.shield_setHp : (c.setHp v x).shield y = c.shield y := by
  cases x <;> cases y <;> rfl
@[simp] theorem Core.shield_setBuff : (c.setBuff v x).shield y = c.shield y := by
  cases x <;> cases y <;> rfl
@[simp] theorem Core.shield_setPoison : (c.setPoison w x).shield y = c.shield y := by
  cases x <;> cases y <;> rfl
@[simp] theorem Core.buff_setHp : (c.setHp v x).buff y = c.buff y := by
  cases x <;> cases y <;> rfl
@[simp] theorem Core.buff_setShield : (c.setShield v x).buff y = c.buff y := by
  cases x <;> cases y <;> rfl
@[simp] theorem Core.buff_setPoison : (c.setPoison w x).buff y = c.buff y := by
  cases x <;> cases y <;> rfl
@[simp] theorem Core.poison_setHp : (c.setHp v x).poison y = c.poison y := by
  cases x <;> cases y <;> rfl
@[simp] theorem Core.poison_setShield : (c.setShield v x).poison y = c.poison y := by
  cases x <;> cases y <;> rfl
@[simp] theorem Core.poison_setBuff : (c.setBuff v x).poison y = c.poison y := by
  cases x <;> cases y <;> rfl

end Setters

/-- The fields that belong to the match and to neither side: whose turn it is,
the phase, the verdict on the game and the mana pool. -/
def Core.table (c : Core) : UInt8 × Phase × UInt8 × UInt8 × UInt8 × UInt8 :=
  (c.turn, c.phase, c.gameOver, c.winner, c.mana, c.maxMana)

@[simp] theorem Core.table_setHp (c : Core) (v : Int16) (x : Side) :
    (c.setHp v x).table = c.table := by cases x <;> rfl
@[simp] theorem Core.table_setShield (c : Core) (v : Int16) (x : Side) :
    (c.setShield v x).table = c.table := by cases x <;> rfl
@[simp] theorem Core.table_setBuff (c : Core) (v : Int16) (x : Side) :
    (c.setBuff v x).table = c.table := by cases x <;> rfl
@[simp] theorem Core.table_setPoison (c : Core) (v : UInt8) (x : Side) :
    (c.setPoison v x).table = c.table := by cases x <;> rfl

/-! ### The log ring -/

/-- The bytes of a formatted message. -/
def text (s : String) : List UInt8 := s.toUTF8.toList

/-- `vsnprintf(buf, 64, ..)` for a message whose formatted bytes are `msg`: at
most 63 of them, a terminating NUL, and the old bytes after it. -/
def vsnprintf (buf : Vector UInt8 logLen) (msg : List UInt8) : Vector UInt8 logLen :=
  Vector.ofFn fun j =>
    if j.val < min msg.length 63 then msg.getD j.val 0
    else if j.val = min msg.length 63 then 0
    else buf[j]

/-- `push_log`. -/
def pushLog (st : State) (msg : List UInt8) : State :=
  let idx := st.logHead.toNat % logLines
  have hidx : idx < logLines := Nat.mod_lt _ (by decide)
  { st with
    logs := st.logs.set idx (vsnprintf st.logs[idx] msg) hidx
    logHead := Narrow.u8 (((st.logHead.toNat + 1) % logLines : ℕ) : ℤ) }

@[simp] theorem pushLog_toCore (st : State) (msg : List UInt8) :
    (pushLog st msg).toCore = st.toCore := rfl

theorem pushLog_logHead (st : State) (msg : List UInt8) :
    (pushLog st msg).logHead.toNat = (st.logHead.toNat + 1) % 6 := by
  have h : Narrow.FitsU8 (((st.logHead.toNat + 1) % logLines : ℕ) : ℤ) := by
    constructor <;> simp only [logLines] <;> omega
  have ht := Narrow.toNat_u8 h
  simp only [logLines] at ht
  simp only [pushLog, logLines]
  omega

/-- The next write index stays inside the ring. -/
theorem pushLog_logHead_lt (st : State) (msg : List UInt8) :
    (pushLog st msg).logHead.toNat < 6 := by
  rw [pushLog_logHead]
  omega

end MiniTcg.Game

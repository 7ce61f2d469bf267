import Mathlib.Tactic

/-!
# Memory blocks and linear buffers

A block is read and written by offsets from its first cell; what the program
may touch of it is a separate obligation. A linear buffer is a block with an
input and an output offset: data enters at the first, leaves at the second, and
both go back to the start when everything has left.
-/

namespace CPrograming

/-- The cells from the start of an array on, whatever lies behind its end. -/
abbrev Memory (α : Type*) := ℕ → α

namespace Memory

variable {α : Type*}

def store (m : Memory α) (off : ℕ) (bs : List α) : Memory α :=
  fun k => if off ≤ k then bs.getD (k-off) (m k) else m k

def load (m : Memory α) : ℕ → ℕ → List α
  | _, 0 => []
  | off, n+1 => m off :: load m (off+1) n

@[simp] theorem load_length (m : Memory α) (off n : ℕ) : (load m off n).length = n := by
  induction n generalizing off with
  | zero => rfl
  | succ n ih => simp [load,ih]

theorem load_add (m : Memory α) (off n k : ℕ) :
    load m off (n+k) = load m off n ++ load m (off+n) k := by
  induction n generalizing off with
  | zero => simp [load]
  | succ n ih =>
    rw [Nat.succ_add,load,ih,load,List.cons_append,Nat.add_right_comm,Nat.add_assoc]

theorem drop_load (m : Memory α) (off n k : ℕ) (hk : k ≤ n) :
    (load m off n).drop k = load m (off+k) (n-k) := by
  obtain ⟨r,rfl⟩ := Nat.exists_eq_add_of_le hk
  rw [load_add,List.drop_left' (by simp)]
  simp

theorem load_le (m : Memory α) (off : ℕ) {n k : ℕ} (h : n ≤ k) :
    load m off n <+: load m off k := by
  obtain ⟨j,rfl⟩ := Nat.exists_eq_add_of_le h
  rw [load_add]
  exact List.prefix_append _ _

theorem load_congr {m m' : Memory α} {off n : ℕ}
    (h : ∀ k, off ≤ k → k < off+n → m k = m' k) : load m off n = load m' off n := by
  induction n generalizing off with
  | zero => rfl
  | succ n ih =>
    rw [load,load,h off (by omega) (by omega),ih]
    intro k hlo hhi
    exact h k (by omega) (by omega)

theorem store_outside (m : Memory α) {off k : ℕ} {bs : List α}
    (h : k < off ∨ off+bs.length ≤ k) : store m off bs k = m k := by
  simp only [store]
  split_ifs with hk
  · have hlen : bs.length ≤ k-off := by omega
    simp [List.getD_eq_getElem?_getD,List.getElem?_eq_none hlen]
  · rfl

theorem load_store_before (m : Memory α) (off o n : ℕ) (bs : List α) (h : o+n ≤ off) :
    load (store m off bs) o n = load m o n := by
  apply load_congr
  intro k _ hk
  simp [store,show ¬ off ≤ k by omega]

@[simp] theorem load_store (m : Memory α) (off : ℕ) (bs : List α) :
    load (store m off bs) off bs.length = bs := by
  induction bs generalizing off with
  | nil => rfl
  | cons b bs ih =>
    have htail : load (store m off (b :: bs)) (off+1) bs.length =
        load (store m (off+1) bs) (off+1) bs.length := by
      apply load_congr
      intro k hlo hhi
      have hk : k-off = (k-(off+1))+1 := by omega
      simp [store,hlo,hk,show off ≤ k by omega]
    rw [List.length_cons,load,htail,ih]
    simp [store]

theorem load_store_prefix (m : Memory α) (off : ℕ) (bs cs : List α) :
    load (store m off (bs ++ cs)) off bs.length = bs := by
  have h := load_store m off (bs ++ cs)
  rw [List.length_append,load_add] at h
  exact (List.append_inj h (by simp)).1

def storeAll (m : Memory α) : List (ℕ × α) → Memory α
  | [] => m
  | (off,b) :: rest => storeAll (store m off [b]) rest

def storesFrom : ℕ → List α → List (ℕ × α)
  | _, [] => []
  | off, b :: bs => (off,b) :: storesFrom (off+1) bs

theorem storesFrom_append (off : ℕ) (bs cs : List α) :
    storesFrom off (bs ++ cs) = storesFrom off bs ++ storesFrom (off+bs.length) cs := by
  induction bs generalizing off with
  | nil => rfl
  | cons b bs ih =>
    rw [List.cons_append,storesFrom,ih,storesFrom,List.cons_append,List.length_cons,
      Nat.add_right_comm,Nat.add_assoc]

theorem mem_storesFrom {off : ℕ} {bs : List α} {e : ℕ × α} (h : e ∈ storesFrom off bs) :
    off ≤ e.1 ∧ e.1 < off+bs.length := by
  induction bs generalizing off with
  | nil => simp [storesFrom] at h
  | cons b bs ih =>
    rw [storesFrom,List.mem_cons] at h
    rw [List.length_cons]
    rcases h with rfl | h
    · dsimp only
      omega
    · have hrest := ih h
      omega

theorem store_cons (m : Memory α) (off : ℕ) (b : α) (bs : List α) :
    store (store m off [b]) (off+1) bs = store m off (b :: bs) := by
  funext k
  rcases Nat.lt_trichotomy k off with hlt | rfl | hgt
  · simp [store,show ¬ off+1 ≤ k by omega,show ¬ off ≤ k by omega]
  · simp [store]
  · have hk : k-off = (k-(off+1))+1 := by omega
    simp [store,show off+1 ≤ k by omega,show off ≤ k by omega,hk]

@[simp] theorem storeAll_storesFrom (m : Memory α) (off : ℕ) (bs : List α) :
    storeAll m (storesFrom off bs) = store m off bs := by
  induction bs generalizing m off with
  | nil =>
    funext k
    simp [storesFrom,storeAll,store]
  | cons b bs ih => rw [storesFrom,storeAll,ih,store_cons]

theorem load_storesFrom (m : Memory α) (off : ℕ) (bs cs : List α) :
    load (storeAll m (storesFrom off (bs ++ cs))) off bs.length = bs := by
  rw [storeAll_storesFrom]
  exact load_store_prefix m off bs cs

end Memory

/-- A block with its input offset and its output offset. -/
structure LinearBuffer (α : Type*) where
  mem : Memory α
  iptr : ℕ
  optr : ℕ

namespace LinearBuffer

variable {α : Type*}

/-- What has entered and not left: the cells from the output to the input offset. -/
def pending (b : LinearBuffer α) : List α := b.mem.load b.optr (b.iptr-b.optr)

def fill (b : LinearBuffer α) (bs : List α) : LinearBuffer α :=
  { b with mem := b.mem.store b.iptr bs, iptr := b.iptr+bs.length }

def advance (b : LinearBuffer α) (k : ℕ) : LinearBuffer α := { b with optr := b.optr+k }

def rewind (b : LinearBuffer α) : LinearBuffer α := { b with iptr := 0, optr := 0 }

/-- Let `k` cells leave, and go back to the start when that was everything. -/
def drain (b : LinearBuffer α) (k : ℕ) : LinearBuffer α :=
  if (b.advance k).optr = (b.advance k).iptr then (b.advance k).rewind else b.advance k

/-- Offsets in order and inside the block, and an exhausted buffer is at its start. -/
structure WellFormed (cap : ℕ) (b : LinearBuffer α) : Prop where
  ordered : b.optr ≤ b.iptr
  bounded : b.iptr ≤ cap
  rewound : b.optr = b.iptr → b.iptr = 0

theorem pending_length (b : LinearBuffer α) : b.pending.length = b.iptr-b.optr := by
  simp [pending]

theorem pending_eq_nil {cap : ℕ} {b : LinearBuffer α} (hb : b.WellFormed cap) :
    b.pending = [] ↔ b.optr = b.iptr := by
  have ho := hb.ordered
  rw [← List.length_eq_zero_iff,pending_length]
  omega

theorem pending_fill (b : LinearBuffer α) (bs : List α) (h : b.optr ≤ b.iptr) :
    (b.fill bs).pending = b.pending ++ bs := by
  have hn : b.iptr+bs.length-b.optr = (b.iptr-b.optr)+bs.length := by omega
  have hi : b.optr+(b.iptr-b.optr) = b.iptr := by omega
  simp only [pending,fill]
  rw [hn,Memory.load_add,hi,Memory.load_store,Memory.load_store_before _ _ _ _ _ (by omega)]

theorem fill_wellFormed {cap : ℕ} {b : LinearBuffer α} (hb : b.WellFormed cap) {bs : List α}
    (hne : bs ≠ []) (hfit : b.iptr+bs.length ≤ cap) : (b.fill bs).WellFormed cap := by
  have ho := hb.ordered
  have hpos := List.length_pos_iff.mpr hne
  refine ⟨?_,hfit,?_⟩ <;> simp only [fill] <;> omega

/-- Draining leaves both offsets equal exactly when it takes everything. -/
theorem drain_empty_iff (b : LinearBuffer α) (k : ℕ) :
    (b.drain k).optr = (b.drain k).iptr ↔ b.optr+k = b.iptr := by
  simp only [drain]
  split_ifs with h
  · simpa [rewind,advance] using h
  · simp [advance]

theorem pending_drain (b : LinearBuffer α) {k : ℕ} (hk : k ≤ b.iptr-b.optr) :
    (b.drain k).pending = b.pending.drop k := by
  rw [pending,pending,Memory.drop_load _ _ _ _ hk]
  simp only [drain]
  split_ifs with h
  · have hz : b.iptr-b.optr-k = 0 := by simp only [advance] at h; omega
    simp [rewind,hz,Memory.load]
  · simp [advance,Nat.sub_sub]

theorem drain_wellFormed {cap : ℕ} {b : LinearBuffer α} (hb : b.WellFormed cap) {k : ℕ}
    (hk : k ≤ b.iptr-b.optr) : (b.drain k).WellFormed cap := by
  have ho := hb.ordered
  have hc := hb.bounded
  simp only [drain]
  split_ifs with h
  · exact ⟨le_refl 0,Nat.zero_le cap,fun _ => rfl⟩
  · refine ⟨?_,hc,fun he => absurd he h⟩
    simp only [advance]
    omega

end LinearBuffer
end CPrograming

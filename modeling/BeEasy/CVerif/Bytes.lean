import Mathlib.Data.Nat.Init
import Mathlib.Tactic.Ring

/-!
# CVerif — Bytes

Integers in memory. A C integer is a number to the program and a run of
bytes to `memcpy` and the wire; which byte comes first depends on the host.
`leBytes`/`ofLeBytes` are the two directions for the low byte first,
`Host.store`/`Host.load` pick the order of a host, and `htonl`/`ntohl` are
the libc conversions, with the one fact about them a protocol needs: what
they put in memory, and what they read from it, is most significant byte
first whatever the host (`storeInt_htonl`, `ntohl_loadInt`).
-/

namespace CVerif

abbrev Byte := BitVec 8

/-- The `n` low-order bytes of `v`, least significant first. -/
def leBytes : Nat → Nat → List Byte
  | 0, _ => []
  | n + 1, v => BitVec.ofNat 8 v :: leBytes n (v / 256)

/-- The number whose bytes these are, least significant first. -/
def ofLeBytes : List Byte → Nat
  | [] => 0
  | b :: bs => b.toNat + 256 * ofLeBytes bs

@[simp] theorem length_leBytes (n v : Nat) : (leBytes n v).length = n := by
  induction n generalizing v with
  | zero => rfl
  | succ n ih => simp [leBytes, ih]

theorem ofLeBytes_leBytes (n v : Nat) : ofLeBytes (leBytes n v) = v % 256 ^ n := by
  induction n generalizing v with
  | zero => simp [leBytes, ofLeBytes, Nat.mod_one]
  | succ n ih =>
      have hbyte : (BitVec.ofNat 8 v).toNat = v % 256 := by simp
      rw [leBytes, ofLeBytes, ih, hbyte, pow_succ', Nat.mod_mul]

theorem leBytes_ofLeBytes (bs : List Byte) : leBytes bs.length (ofLeBytes bs) = bs := by
  induction bs with
  | nil => rfl
  | cons b bs ih =>
      have hb : b.toNat < 256 := b.isLt
      simp only [List.length_cons, leBytes, ofLeBytes]
      congr 1
      · apply BitVec.eq_of_toNat_eq
        simp only [BitVec.toNat_ofNat]
        omega
      · rw [show (b.toNat + 256 * ofLeBytes bs) / 256 = ofLeBytes bs from by omega, ih]

/-! Longer integers, half by half. -/

theorem leBytes_mod (n v : Nat) : leBytes n (v % 256 ^ n) = leBytes n v := by
  have h := leBytes_ofLeBytes (leBytes n v)
  rwa [length_leBytes, ofLeBytes_leBytes] at h

theorem leBytes_add (m n v : Nat) :
    leBytes (m + n) v = leBytes m v ++ leBytes n (v / 256 ^ m) := by
  induction m generalizing v with
  | zero => rw [Nat.zero_add, pow_zero, Nat.div_one]; rfl
  | succ m ih =>
      rw [Nat.succ_add, leBytes, leBytes, ih, Nat.div_div_eq_div_mul, ← pow_succ']
      rfl

theorem ofLeBytes_append (as bs : List Byte) :
    ofLeBytes (as ++ bs) = ofLeBytes as + 256 ^ as.length * ofLeBytes bs := by
  induction as with
  | nil => simp [ofLeBytes]
  | cons a as ih =>
      rw [List.cons_append, ofLeBytes, ih, ofLeBytes, List.length_cons, pow_succ']
      ring

/-- The `n` low-order bytes of `v` in network order. -/
def beBytes (n v : Nat) : List Byte := (leBytes n v).reverse

/-- The number whose bytes these are in network order. -/
def ofBeBytes (bs : List Byte) : Nat := ofLeBytes bs.reverse

@[simp] theorem length_beBytes (n v : Nat) : (beBytes n v).length = n := by
  simp [beBytes]

theorem ofBeBytes_beBytes (n v : Nat) : ofBeBytes (beBytes n v) = v % 256 ^ n := by
  rw [ofBeBytes, beBytes, List.reverse_reverse, ofLeBytes_leBytes]

theorem beBytes_ofBeBytes (bs : List Byte) : beBytes bs.length (ofBeBytes bs) = bs := by
  have h := leBytes_ofLeBytes bs.reverse
  rw [List.length_reverse] at h
  rw [beBytes, ofBeBytes, h, List.reverse_reverse]

theorem beBytes_add (m n v : Nat) :
    beBytes (m + n) v = beBytes n (v / 256 ^ m) ++ beBytes m v := by
  rw [beBytes, leBytes_add, List.reverse_append]
  rfl

theorem ofBeBytes_append (as bs : List Byte) :
    ofBeBytes (as ++ bs) = 256 ^ bs.length * ofBeBytes as + ofBeBytes bs := by
  rw [ofBeBytes, List.reverse_append, ofLeBytes_append, List.length_reverse, Nat.add_comm]
  rfl

/-! ## Hosts -/

/-- The byte order of a machine. -/
inductive Host where
  | little
  | big
  deriving DecidableEq

/-- How the host lays an `n`-byte integer out in memory. -/
def Host.store : Host → Nat → Nat → List Byte
  | .little, n, v => leBytes n v
  | .big, n, v => beBytes n v

/-- The integer the host reads from these bytes. -/
def Host.load : Host → List Byte → Nat
  | .little, bs => ofLeBytes bs
  | .big, bs => ofBeBytes bs

/-- The `n`-byte conversion between host and network order: the bytes are
swapped on a little-endian host and left alone on a big-endian one. -/
def Host.swap : Host → Nat → Nat → Nat
  | .little, n, v => ofBeBytes (leBytes n v)
  | .big, _, v => v

@[simp] theorem Host.length_store (h : Host) (n v : Nat) : (h.store n v).length = n := by
  cases h <;> simp [store]

/-- A converted integer lies in memory in network order. -/
theorem Host.store_swap (h : Host) (n v : Nat) : h.store n (h.swap n v) = beBytes n v := by
  cases h with
  | little =>
      have := leBytes_ofLeBytes (leBytes n v).reverse
      rw [List.length_reverse, length_leBytes] at this
      exact this
  | big => rfl

/-- Converting what was loaded reads the bytes in network order. -/
theorem Host.swap_load (h : Host) (bs : List Byte) :
    h.swap bs.length (h.load bs) = ofBeBytes bs := by
  cases h with
  | little => rw [swap, load, leBytes_ofLeBytes]
  | big => rfl

theorem ofLeBytes_lt (bs : List Byte) : ofLeBytes bs < 256 ^ bs.length := by
  induction bs with
  | nil => simp [ofLeBytes]
  | cons b bs ih =>
      have hb : b.toNat < 256 := b.isLt
      rw [ofLeBytes, List.length_cons, pow_succ]
      omega

theorem ofBeBytes_lt (bs : List Byte) : ofBeBytes bs < 256 ^ bs.length := by
  simpa [ofBeBytes] using ofLeBytes_lt bs.reverse

theorem Host.load_lt (h : Host) (bs : List Byte) : h.load bs < 256 ^ bs.length := by
  cases h with
  | little => exact ofLeBytes_lt bs
  | big => exact ofBeBytes_lt bs

theorem Host.swap_lt (h : Host) {n v : Nat} (hv : v < 256 ^ n) : h.swap n v < 256 ^ n := by
  cases h with
  | little => simpa [swap] using ofBeBytes_lt (leBytes n v)
  | big => exact hv

/-! ## The 16- and 32-bit conversions -/

def storeShort (h : Host) (v : BitVec 16) : List Byte := h.store 2 v.toNat
def loadShort (h : Host) (bs : List Byte) : BitVec 16 := BitVec.ofNat 16 (h.load bs)
def htons (h : Host) (v : BitVec 16) : BitVec 16 := BitVec.ofNat 16 (h.swap 2 v.toNat)
def ntohs (h : Host) (v : BitVec 16) : BitVec 16 := htons h v

def storeInt (h : Host) (v : BitVec 32) : List Byte := h.store 4 v.toNat
def loadInt (h : Host) (bs : List Byte) : BitVec 32 := BitVec.ofNat 32 (h.load bs)
def htonl (h : Host) (v : BitVec 32) : BitVec 32 := BitVec.ofNat 32 (h.swap 4 v.toNat)
def ntohl (h : Host) (v : BitVec 32) : BitVec 32 := htonl h v

@[simp] theorem length_storeShort (h : Host) (v : BitVec 16) :
    (storeShort h v).length = 2 := h.length_store 2 _

@[simp] theorem length_storeInt (h : Host) (v : BitVec 32) :
    (storeInt h v).length = 4 := h.length_store 4 _

theorem storeShort_htons (h : Host) (v : BitVec 16) :
    storeShort h (htons h v) = beBytes 2 v.toNat := by
  have hlt : h.swap 2 v.toNat < 2 ^ 16 := h.swap_lt (n := 2) v.isLt
  rw [storeShort, htons, BitVec.toNat_ofNat, Nat.mod_eq_of_lt hlt, h.store_swap]

theorem storeInt_htonl (h : Host) (v : BitVec 32) :
    storeInt h (htonl h v) = beBytes 4 v.toNat := by
  have hlt : h.swap 4 v.toNat < 2 ^ 32 := h.swap_lt (n := 4) v.isLt
  rw [storeInt, htonl, BitVec.toNat_ofNat, Nat.mod_eq_of_lt hlt, h.store_swap]

theorem ntohs_loadShort (h : Host) {bs : List Byte} (hlen : bs.length = 2) :
    ntohs h (loadShort h bs) = BitVec.ofNat 16 (ofBeBytes bs) := by
  have hlt : h.load bs < 2 ^ 16 := by simpa [hlen] using h.load_lt bs
  rw [ntohs, htons, loadShort, BitVec.toNat_ofNat, Nat.mod_eq_of_lt hlt, ← hlen, h.swap_load]

theorem ntohl_loadInt (h : Host) {bs : List Byte} (hlen : bs.length = 4) :
    ntohl h (loadInt h bs) = BitVec.ofNat 32 (ofBeBytes bs) := by
  have hlt : h.load bs < 2 ^ 32 := by simpa [hlen] using h.load_lt bs
  rw [ntohl, htonl, loadInt, BitVec.toNat_ofNat, Nat.mod_eq_of_lt hlt, ← hlen, h.swap_load]

/-- What `htonl` sent, `ntohl` receives, on hosts of any two byte orders. -/
theorem ntohl_loadInt_beBytes (h : Host) (v : BitVec 32) :
    ntohl h (loadInt h (beBytes 4 v.toNat)) = v := by
  rw [ntohl_loadInt h (by simp), ofBeBytes_beBytes]
  exact BitVec.eq_of_toNat_eq (by simp; omega)

theorem ntohs_loadShort_beBytes (h : Host) (v : BitVec 16) :
    ntohs h (loadShort h (beBytes 2 v.toNat)) = v := by
  rw [ntohs_loadShort h (by simp), ofBeBytes_beBytes]
  exact BitVec.eq_of_toNat_eq (by simp; omega)

/-! ## Lengths -/

/-- A length that an `int` holds is the same number as an `int`, ... -/
theorem toInt_length {n : Nat} (h : n < 2 ^ 31) : (BitVec.ofNat 32 n).toInt = n := by
  rw [BitVec.toInt_eq_toNat_cond, BitVec.toNat_ofNat, Nat.mod_eq_of_lt (by omega),
    if_pos (by omega)]

/-- ... and where it is passed as a `size_t`. -/
theorem toNat_signExtend_length {n : Nat} (h : n < 2 ^ 31) :
    ((BitVec.ofNat 32 n).signExtend 64).toNat = n := by
  have hmsb : (BitVec.ofNat 32 n).msb = false := by
    rw [BitVec.msb_eq_false_iff_two_mul_lt, BitVec.toNat_ofNat]
    omega
  rw [BitVec.signExtend_eq_setWidth_of_msb_false hmsb, BitVec.toNat_setWidth, BitVec.toNat_ofNat]
  omega

end CVerif

import MidnightOS.Nyxboot.Efi

/-! # A firmware that meets the assumptions

`Firmware.bump` hands out memory from the bottom up, and refuses what does not
fit below its limit.  Its file operations succeed.  It satisfies
`Firmware.SoundPages` and `Firmware.SoundPool`, so results that assume these are
not vacuous.
-/

namespace MidnightOS.Nyxboot

open MidnightOS.Lib

/-- An address above everything obtained so far.  The first page is left alone. -/
def topOf : List Event → Nat
  | [] => 4096
  | .allocatePages n (.ok a) :: h => max (a.toNat + 4096 * n.toNat) (topOf h)
  | .allocatePool n (.ok a) :: h => max (a.toNat + n.toNat) (topOf h)
  | _ :: h => topOf h

/-- The first page boundary above everything obtained so far. -/
def nextPage (h : List Event) : Nat := (topOf h + 4095) / 4096 * 4096

theorem topOf_le_nextPage (h : List Event) : topOf h ≤ nextPage h := by
  rw [nextPage]
  omega

theorem nextPage_load (h : List Event) (a n : Nat) : nextPage (.load a n :: h) = nextPage h :=
  congrArg (fun top => (top + 4095) / 4096 * 4096) (show topOf (.load a n :: h) = topOf h from rfl)

theorem nextPage_store (h : List Event) (a n : Nat) : nextPage (.store a n :: h) = nextPage h :=
  congrArg (fun top => (top + 4095) / 4096 * 4096) (show topOf (.store a n :: h) = topOf h from rfl)

/-- Hand out `size` bytes at the next page boundary, if they end below `limit`. -/
def bumpGrant (limit : Nat) (h : List Event) (size : Nat) : Except EfiError UINT64 :=
  if nextPage h + size ≤ limit then .ok (BitVec.ofNat 64 (nextPage h))
  else .error .outOfResources

def Firmware.bump (limit : Nat) : Firmware where
  allocatePages h n := bumpGrant limit h (4096 * n.toNat)
  allocatePool h n := bumpGrant limit h n.toNat
  setPosition _ _ := .ok ()
  read _ _ _ := .ok ()
  indeterminate _ _ := 0

/-! ## Soundness -/

theorem le_topOf (h : List Event) : 4096 ≤ topOf h := by
  induction h using topOf.induct with
  | case1 => exact Nat.le_refl _
  | case2 n a h ih => exact Nat.le_trans ih (Nat.le_max_right _ _)
  | case3 n a h ih => exact Nat.le_trans ih (Nat.le_max_right _ _)
  | case4 ev h hev hev' ih => rwa [topOf.eq_4 ev h hev hev']

theorem topOf_append (h h' : List Event) : topOf (h ++ h') = max (topOf h) (topOf h') := by
  have low := le_topOf h'
  induction h using topOf.induct with
  | case1 => exact (Nat.max_eq_right low).symm
  | case2 n a h ih => rw [List.cons_append, topOf, topOf, ih, Nat.max_assoc]
  | case3 n a h ih => rw [List.cons_append, topOf, topOf, ih, Nat.max_assoc]
  | case4 ev h hev hev' ih =>
    rw [List.cons_append, topOf.eq_4 ev _ hev hev', topOf.eq_4 ev _ hev hev', ih]

theorem pagesHeld_lt_topOf {h : List Event} {x : Nat} (hx : PagesHeld h x) : x < topOf h := by
  induction h with
  | nil => exact absurd hx id
  | cons ev h ih =>
    cases ev with
    | allocatePages n res =>
      cases res with
      | error e => exact ih hx
      | ok a =>
        rcases hx with ⟨_, hlt⟩ | hx
        · exact Nat.lt_of_lt_of_le hlt (Nat.le_max_left _ _)
        · exact Nat.lt_of_lt_of_le (ih hx) (Nat.le_max_right _ _)
    | freePages a n => exact ih hx.1
    | allocatePool n res =>
      cases res with
      | error e => exact ih hx
      | ok a => exact Nat.lt_of_lt_of_le (ih hx) (Nat.le_max_right _ _)
    | load a n => exact ih hx
    | store a n => exact ih hx
    | freePool a => exact ih hx
    | setPosition p res => exact ih hx
    | read n b res => exact ih hx

theorem poolBuffers_le_topOf {h : List Event} {b : Nat × Nat} (hb : b ∈ poolBuffers h) :
    b.1 + b.2 ≤ topOf h := by
  induction h with
  | nil => cases hb
  | cons ev h ih =>
    cases ev with
    | allocatePages n res =>
      cases res with
      | error e => exact ih hb
      | ok a => exact Nat.le_trans (ih hb) (Nat.le_max_right _ _)
    | freePages a n => exact ih hb
    | allocatePool n res =>
      cases res with
      | error e => exact ih hb
      | ok a =>
        rcases List.mem_cons.mp hb with rfl | hb
        · exact Nat.le_max_left _ _
        · exact Nat.le_trans (ih hb) (Nat.le_max_right _ _)
    | load a n => exact ih hb
    | store a n => exact ih hb
    | freePool a => exact ih (List.mem_filter.mp hb).1
    | setPosition p res => exact ih hb
    | read n b' res => exact ih hb

/-- Nothing above the next page boundary is in use. -/
theorem inUse_lt_nextPage {h : List Event} {x : Nat} (hx : InUse h x) : x < nextPage h := by
  refine Nat.lt_of_lt_of_le ?_ (topOf_le_nextPage h)
  rcases hx with hx | ⟨b, hb, _, hlt⟩
  · exact pagesHeld_lt_topOf hx
  · exact Nat.lt_of_lt_of_le hlt (poolBuffers_le_topOf hb)

section Grants

variable {limit size : Nat} {h : List Event} {a : UINT64}

theorem bumpGrant_ok (hlimit : limit ≤ 2 ^ 52) (hok : bumpGrant limit h size = .ok a) :
    a.toNat = nextPage h ∧ nextPage h + size ≤ limit := by
  unfold bumpGrant at hok
  split at hok
  · next hle =>
    obtain rfl := Except.ok.inj hok
    rw [BitVec.toNat_ofNat]
    exact ⟨Nat.mod_eq_of_lt (by omega), hle⟩
  · cases hok

theorem bumpGrant_fresh (hlimit : limit ≤ 2 ^ 52) (hok : bumpGrant limit h size = .ok a)
    {x : Nat} (hx : a.toNat ≤ x) : ¬InUse h x := by
  intro huse
  have := inUse_lt_nextPage huse
  have := (bumpGrant_ok hlimit hok).1
  omega

theorem bumpGrant_of_fits (hfits : nextPage h + size ≤ limit) {e : EfiError} :
    bumpGrant limit h size ≠ .error e := by
  rw [bumpGrant, if_pos hfits]
  nofun

end Grants

/-- A grant of pages moves the boundary up by these pages. -/
theorem nextPage_allocatePages {h : List Event} {n : UINTN} {a : UINT64}
    (ha : a.toNat = nextPage h) :
    nextPage (.allocatePages n (.ok a) :: h) = nextPage h + 4096 * n.toNat := by
  have hle := topOf_le_nextPage h
  have hboundary : nextPage h % 4096 = 0 := by
    rw [nextPage]
    omega
  rw [nextPage, topOf, Nat.max_eq_left (by omega)]
  omega

theorem Firmware.bump_soundPages (limit : Nat) (hlimit : limit ≤ 2 ^ 52) :
    (Firmware.bump limit).SoundPages := by
  refine ⟨fun h n a hok => ?_, fun h n a hok => ?_, fun h n a hok x hx _ => ?_⟩
  · rw [(bumpGrant_ok hlimit hok).1, nextPage]
    omega
  · obtain ⟨heq, hle⟩ := bumpGrant_ok hlimit hok
    omega
  · exact bumpGrant_fresh hlimit hok hx

theorem Firmware.bump_soundPool (limit : Nat) (hlimit : limit ≤ 2 ^ 52) :
    (Firmware.bump limit).SoundPool := by
  refine ⟨fun h n a hok => ?_, fun h n a hok => ?_, fun h n a hok x hx _ => ?_⟩
  · rintro rfl
    have heq := (bumpGrant_ok hlimit hok).1
    have := topOf_le_nextPage h
    have := le_topOf h
    simp only [BitVec.ofNat_eq_ofNat, BitVec.toNat_ofNat] at heq
    omega
  · obtain ⟨heq, hle⟩ := bumpGrant_ok hlimit hok
    omega
  · exact bumpGrant_fresh hlimit hok hx

end MidnightOS.Nyxboot

/-
# `Fidogate.Common.DbzSize` — dbz.c: the size of a table

`dbzsize` looks for a prime from one and a half times the number of entries
on.  `isprime` divides by the primes up to 37 and then by odd numbers up to a
power of two times a half of the number, which is behind its square root.
-/
import Fidogate.Common.Dbz
import Mathlib.NumberTheory.Bertrand

namespace Fidogate

/-- The primes `isprime` tries first. -/
def quickPrimes : List Nat := [2, 3, 5, 7, 11, 13, 17, 19, 23, 29, 31, 37]

/-- The approximate square root, halved until its square is not more than `x`. -/
def stopLoop (x : Nat) : Nat → Nat → Nat
  | 0, stop => stop
  | k + 1, stop => if x / stop < stop then stopLoop x k (stop / 2) else stop

/-- `isprime` -/
def isprime (x : Nat) : Bool :=
  if quickPrimes.any fun div => x % div == 0 then false
  else
    let stop := 2 * stopLoop x x x
    (List.range' 37 ((stop - 37 + 1) / 2) 2).all fun div => x % div != 0

/-- The loop of `dbzsize`. -/
def dbzsizeLoop : Nat → Nat → Nat
  | 0, n => n
  | k + 1, n => if isprime n then n else dbzsizeLoop k (n + 2)

/-- `dbzsize`; there is a prime within the rounds. -/
def dbzsize (contents : Nat) : Nat :=
  if contents = 0 then DEFSIZE
  else
    let n := contents / 2 * 3
    let n := if n % 2 = 0 then n + 1 else n
    dbzsizeLoop (n + 41) n

/-! ## `isprime` -/

theorem stopLoop_le (x : Nat) : ∀ (k stop : Nat), stopLoop x k stop ≤ stop
  | 0, stop => Nat.le_refl stop
  | k + 1, stop => by
      rw [stopLoop]
      split
      · exact (stopLoop_le x k (stop / 2)).trans (Nat.div_le_self stop 2)
      · exact Nat.le_refl stop

/-- Where halving stops, the square of twice the number and one is more than
`x`. -/
theorem stopLoop_spec {x : Nat} (hx : 0 < x) : ∀ {k stop : Nat}, 0 < stop → stop ≤ k →
    x < (2 * stop + 1) * (2 * stop + 1) →
    x < (2 * stopLoop x k stop + 1) * (2 * stopLoop x k stop + 1)
  | 0, stop, hs, hk, _ => by omega
  | k + 1, stop, hs, hk, hlt => by
      rw [stopLoop]
      split
      · next h =>
          have hsq : x < stop * stop := (Nat.div_lt_iff_lt_mul hs).mp h
          have hle : stop ≤ 2 * (stop / 2) + 1 := by omega
          have hnext := hsq.trans_le (Nat.mul_le_mul hle hle)
          have hpos : 0 < stop / 2 := by
            by_contra h0
            have h1 : stop = 1 := by omega
            rw [h1] at hsq
            omega
          exact stopLoop_spec hx hpos (by omega) hnext
      · exact hlt

theorem mem_quickPrimes : ∀ p < 38, p.Prime → p ∈ quickPrimes := by
  decide +kernel

theorem le_of_mem_quickPrimes : ∀ p ∈ quickPrimes, 1 < p ∧ p ≤ 37 := by
  decide

/-- What is left over is prime, and no small one. -/
theorem isprime_iff {x : Nat} (hx : 1 < x) : isprime x = true ↔ x.Prime ∧ 37 < x := by
  have hquick : quickPrimes.any (fun div => x % div == 0) = true ↔ ∃ p ∈ quickPrimes, p ∣ x := by
    simp only [List.any_eq_true, beq_iff_eq, Nat.dvd_iff_mod_eq_zero]
  rw [isprime]
  constructor
  · intro h
    split at h
    · cases h
    · next hno =>
        rw [hquick] at hno
        have hlarge : ∀ p, p.Prime → p ∣ x → 37 < p := by
          intro p hp hd
          by_contra hle
          exact hno ⟨p, mem_quickPrimes p (by omega) hp, hd⟩
        have hprime : x.Prime := by
          by_contra hnot
          -- The smallest factor is odd, and in front of the place to stop.
          have hp := Nat.minFac_prime (show x ≠ 1 by omega)
          have hd := Nat.minFac_dvd x
          have hsq := Nat.minFac_sq_le_self (by omega) hnot
          have hbig := hlarge _ hp hd
          have hodd : x.minFac % 2 = 1 := hp.eq_two_or_odd.resolve_left (by omega)
          have hstop := stopLoop_spec (by omega) (show 0 < x by omega) (Nat.le_refl x)
            (show x < (2 * x + 1) * (2 * x + 1) by
              calc x < 2 * x + 1 := by omega
                _ ≤ (2 * x + 1) * (2 * x + 1) := Nat.le_mul_of_pos_right _ (by omega))
          have hlt : x.minFac < 2 * stopLoop x x x + 1 := by
            by_contra hge
            have := Nat.mul_le_mul (Nat.not_lt.mp hge) (Nat.not_lt.mp hge)
            rw [← Nat.pow_two x.minFac] at this
            omega
          have hall := List.all_eq_true.mp h x.minFac
            (List.mem_range'.mpr ⟨(x.minFac - 37) / 2, by omega, by omega⟩)
          rw [bne_iff_ne] at hall
          exact hall (Nat.mod_eq_zero_of_dvd hd)
        exact ⟨hprime, hlarge x hprime (Nat.dvd_refl x)⟩
  · rintro ⟨hprime, hlt⟩
    have hone : ∀ d, 1 < d → d < x → ¬ d ∣ x := by
      intro d h1 hdx hd
      rcases (Nat.dvd_prime hprime).mp hd with h | h <;> omega
    rw [if_neg]
    · refine List.all_eq_true.mpr fun d hd => ?_
      obtain ⟨i, hi, rfl⟩ := List.mem_range'.mp hd
      have hhalf : stopLoop x x x ≤ x / 2 := by
        obtain ⟨k, rfl⟩ : ∃ k, x = k + 1 := ⟨x - 1, by omega⟩
        rw [stopLoop, Nat.div_self (by omega), if_pos hx]
        exact stopLoop_le (k + 1) k _
      rw [bne_iff_ne]
      intro hmod
      exact hone _ (by omega) (by omega) (Nat.dvd_of_mod_eq_zero hmod)
    · rw [hquick]
      rintro ⟨p, hp, hd⟩
      have := le_of_mem_quickPrimes p hp
      exact hone p this.1 (by omega) hd

/-! ## `dbzsize` -/

/-- The loop stops at the first odd number from `n` on that `isprime` takes,
where there is one within its rounds. -/
theorem dbzsizeLoop_spec : ∀ {k n q : Nat}, n ≤ q → q % 2 = n % 2 → q < n + 2 * k →
    isprime q = true → isprime (dbzsizeLoop k n) = true ∧ n ≤ dbzsizeLoop k n ∧
      ∀ m, n ≤ m → m < dbzsizeLoop k n → m % 2 = n % 2 → isprime m = false
  | 0, n, q, hnq, _, hlt, _ => by omega
  | k + 1, n, q, hnq, hpar, hlt, hq => by
      rw [dbzsizeLoop]
      split
      · next h => exact ⟨h, Nat.le_refl n, fun m hnm hmn _ => by omega⟩
      · next h =>
          have hne : n ≠ q := fun he => h (he ▸ hq)
          obtain ⟨hprime, hle, hbefore⟩ :=
            dbzsizeLoop_spec (k := k) (n := n + 2) (q := q) (by omega) (by omega) (by omega) hq
          refine ⟨hprime, by omega, fun m hnm hmr hm => ?_⟩
          obtain rfl | hlt := Nat.eq_or_lt_of_le hnm
          · exact Bool.eq_false_iff.mpr h
          · exact hbefore m (by omega) hmr (by omega)

/-- For two entries or more, `dbzsize` is the first prime above 37 from one
and a half times their number on. -/
theorem dbzsize_prime {contents : Nat} (h : 1 < contents) :
    (dbzsize contents).Prime ∧ 37 < dbzsize contents ∧ contents / 2 * 3 ≤ dbzsize contents ∧
      ∀ p, p.Prime → 37 < p → contents / 2 * 3 ≤ p → dbzsize contents ≤ p := by
  rw [dbzsize, if_neg (by omega)]
  dsimp only
  generalize hn : (if contents / 2 * 3 % 2 = 0 then contents / 2 * 3 + 1
    else contents / 2 * 3) = n
  have hodd : n % 2 = 1 := by
    rw [← hn]
    split <;> omega
  have hle : contents / 2 * 3 ≤ n ∧ n ≤ contents / 2 * 3 + 1 := by
    rw [← hn]
    split <;> omega
  obtain ⟨q, hq, hlt, hbound⟩ := Nat.exists_prime_lt_and_le_two_mul (max n 40) (by omega)
  have hqodd : q % 2 = 1 := hq.eq_two_or_odd.resolve_left (by omega)
  obtain ⟨hprime, hge, hfirst⟩ := dbzsizeLoop_spec (k := n + 41) (n := n) (q := q) (by omega)
    (by omega) (by omega) ((isprime_iff (by omega)).mpr ⟨hq, by omega⟩)
  obtain ⟨hp, h37⟩ := (isprime_iff (by omega)).mp hprime
  refine ⟨hp, h37, by omega, fun p hpp hp37 hcp => ?_⟩
  have hpodd : p % 2 = 1 := hpp.eq_two_or_odd.resolve_left (by omega)
  by_contra hlt'
  have := hfirst p (by omega) (by omega) (by omega)
  rw [(isprime_iff (by omega)).mpr ⟨hpp, hp37⟩] at this
  cases this

theorem dbzsize_prime_ten : (dbzsize 10).Prime ∧ 37 < dbzsize 10 ∧ 15 ≤ dbzsize 10 ∧
    ∀ p, p.Prime → 37 < p → 15 ≤ p → dbzsize 10 ≤ p :=
  dbzsize_prime (by decide)

end Fidogate

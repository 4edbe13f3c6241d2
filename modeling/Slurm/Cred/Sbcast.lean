import Slurm.Lib.CString
import Slurm.Lib.Run
import Slurm.Record

/-!
# Credentials of file broadcasts

A file is sent to the nodes of a job in blocks, each with the same credential. The signature of a
credential can be checked once, so a node checks it for the first block, and remembers its
expiration and the sum of the bytes of its signature, two by two (`sbcastCacheAdd`). The credential
of another block is accepted if it has the same expiration and sum as one that is remembered. If
it has not, and the node was restarted within the last minute, the signature is checked again, and
it is accepted also if it was checked by somebody before, or if the plugin has no text for what is
wrong with it.

So a credential that was never signed is accepted if it has the expiration and the sum of another
one (`Sbcast.forged_accepted`), and a signature of odd length is read beyond its end. If there are
no two such credentials, and if signatures have even lengths and are found to be replayed, or bad
without a text, only if they were checked before, each credential that is accepted was checked
(`Sbcast.accepted_signed`).
-/

namespace Slurm

open List

/-- `sbcast_cred_t`. The bytes of the signature are signed. -/
structure SbcastCred where
  ctime : ℤ
  expiration : ℤ
  jobid : ℕ
  nodes : CStr
  signature : List ℤ
  deriving DecidableEq

/-- `struct sbcast_cache`. -/
structure SbcastCache where
  expire : ℤ
  value : ℕ
  deriving DecidableEq

/-- What the plugin says of a signature: it is good, it is good but was checked before (`Credential
    replayed`), there is another error, or an error of which `crypto_str_error` has no text. -/
inductive CryptoRc
  | success
  | replayed
  | error
  | noText
  deriving DecidableEq

/-- What a node remembers: `sbcast_cache_list`, and `crypto_restart_time`. -/
structure SbcastCtx where
  cacheList : List SbcastCache := []
  restartTime : ℤ := 0

/-! ## The source -/

/-- The sum of a signature, two bytes at a time, and whether it is read beyond its end, where the
    byte is `beyond`. -/
def sigNum (beyond : ℤ) : ℕ → List ℤ → ℕ × Bool
  | sum, [] => (sum, false)
  | sum, [a] => (CString.toUInt (sum + (a * 256 + beyond)), true)
  | sum, a :: b :: sig => sigNum beyond (CString.toUInt (sum + (a * 256 + b))) sig

/-- `_sbast_cache_add`. -/
def SbcastCtx.sbcastCacheAdd (ctx : SbcastCtx) (cred : SbcastCred) (beyond : ℤ) : SbcastCtx :=
  { ctx with
    cacheList := ctx.cacheList ++ [⟨cred.expiration, (sigNum beyond 0 cred.signature).1⟩] }

/-- The walk through the list for a record, which drops the expired ones before it. -/
def scanCache (now expire : ℤ) (value : ℕ) : List SbcastCache → List SbcastCache × Bool
  | [] => ([], false)
  | r :: rs =>
    if r.expire = expire ∧ r.value = value then (r :: rs, true)
    else
      let (rs, found) := scanCache now expire value rs
      (if r.expire ≤ now then rs else r :: rs, found)

/-- What `extract_sbcast_cred` does: the state after it, whether it succeeds, whether the plugin
    checked the signature and found it good, and whether it read beyond the signature. -/
structure Extracted where
  ctx : SbcastCtx
  ok : Bool
  checked : Bool
  outside : Bool

/-- `extract_sbcast_cred`. The plugin would say `rc` of the signature. -/
def SbcastCtx.extractSbcastCred (ctx : SbcastCtx) (now : ℤ) (cred : SbcastCred) (blockNo : ℕ)
    (rc : CryptoRc) (beyond : ℤ) : Extracted :=
  let outside := (sigNum beyond 0 cred.signature).2
  if cred.expiration < now then ⟨ctx, false, false, false⟩
  else if blockNo = 1 then
    if rc = .success then ⟨ctx.sbcastCacheAdd cred beyond, true, true, outside⟩
    else ⟨ctx, false, false, false⟩
  else
    let (cacheList, found) :=
      scanCache now cred.expiration (sigNum beyond 0 cred.signature).1 ctx.cacheList
    let ctx := { ctx with cacheList := cacheList }
    if found then ⟨ctx, true, false, outside⟩
    else if 60 < now - ctx.restartTime then ⟨ctx, false, false, outside⟩
    else if rc = .error then ⟨ctx, false, false, outside⟩
    else ⟨ctx.sbcastCacheAdd cred beyond, true, rc = .success, outside⟩

/-! ## Runs -/

/-- A node, with the credentials whose signatures were checked and found good. -/
structure Sbcast where
  ctx : SbcastCtx := {}
  signed : List SbcastCred := []

/-- A credential is shown with a block, or the node is restarted. -/
inductive SbcastOp
  | extract (now : ℤ) (cred : SbcastCred) (blockNo : ℕ) (rc : CryptoRc) (beyond : ℤ)
  | restart (now : ℤ)

namespace Sbcast

/-- What an operation does. -/
def exec (s : Sbcast) : SbcastOp → Sbcast
  | .extract now cred blockNo rc beyond =>
    let e := s.ctx.extractSbcastCred now cred blockNo rc beyond
    ⟨e.ctx, if e.checked then cred :: s.signed else s.signed⟩
  | .restart now => ⟨⟨[], now⟩, s.signed⟩

/-- A credential that is accepted was checked, now or before, and no byte outside of its signature
    is read. -/
def Authentic (s : Sbcast) : SbcastOp → Prop
  | .extract now cred blockNo rc beyond =>
    let e := s.ctx.extractSbcastCred now cred blockNo rc beyond
    (e.ok = true → e.checked = true ∨ cred ∈ s.signed) ∧ e.outside = false
  | .restart _ => True

instance (s : Sbcast) : ∀ o, Decidable (s.Authentic o)
  | .extract _ _ _ _ _ => inferInstanceAs (Decidable (_ ∧ _))
  | .restart _ => inferInstanceAs (Decidable True)

/-- A signature has an even length, no credential that was checked has its sum and the expiration
    of its credential but is a different one, and the plugin finds it replayed, or bad without a
    text, only if it was checked. -/
def Distinct (s : Sbcast) : SbcastOp → Prop
  | .extract _ cred _ rc _ =>
    cred.signature.length % 2 = 0 ∧
    (∀ c ∈ s.signed, c.expiration = cred.expiration →
      (sigNum 0 0 c.signature).1 = (sigNum 0 0 cred.signature).1 → c = cred) ∧
    (rc = .replayed ∨ rc = .noText → cred ∈ s.signed)
  | .restart _ => True

instance (s : Sbcast) : ∀ o, Decidable (s.Distinct o)
  | .extract _ _ _ _ _ => inferInstanceAs (Decidable (_ ∧ _ ∧ (_ → _)))
  | .restart _ => inferInstanceAs (Decidable True)

/-! ## Sums -/

variable {s : Sbcast} {cred : SbcastCred} {now : ℤ} {rc : CryptoRc} {blockNo : ℕ} {beyond : ℤ}

/-- The sum of a signature of even length does not depend on what comes after it. -/
theorem sigNum_even (beyond : ℤ) {sum : ℕ} {sig : List ℤ} (h : sig.length % 2 = 0) :
    sigNum beyond sum sig = ((sigNum 0 sum sig).1, false) := by
  fun_induction sigNum beyond sum sig with
  | case1 sum => rfl
  | case2 sum a => simp at h
  | case3 sum a b sig ih =>
    refine ih ?_
    simp only [length_cons] at h
    omega

theorem scanCache_spec (now expire : ℤ) (value : ℕ) (l : List SbcastCache) :
    (∀ r ∈ (scanCache now expire value l).1, r ∈ l) ∧
      ((scanCache now expire value l).2 = true → ⟨expire, value⟩ ∈ l) := by
  induction l with
  | nil => simp [scanCache]
  | cons r l ih =>
    simp only [scanCache]
    split_ifs with hmatch hexpired
    · obtain ⟨rfl, rfl⟩ := hmatch
      simp
    · exact ⟨fun r' hr' => mem_cons_of_mem _ (ih.1 r' hr'), fun h => mem_cons_of_mem _ (ih.2 h)⟩
    · refine ⟨fun r' hr' => ?_, fun h => mem_cons_of_mem _ (ih.2 h)⟩
      exact (mem_cons.1 hr').elim (fun h => h ▸ mem_cons_self)
        fun h => mem_cons_of_mem _ (ih.1 r' h)

/-! ## What is remembered -/

/-- Every record is that of a credential that was checked. -/
def Remembers (s : Sbcast) : Prop :=
  ∀ r ∈ s.ctx.cacheList, ∃ c ∈ s.signed, r = ⟨c.expiration, (sigNum 0 0 c.signature).1⟩

theorem Remembers.mono {s s' : Sbcast} (h : s.Remembers)
    (hcache : ∀ r ∈ s'.ctx.cacheList, r ∈ s.ctx.cacheList)
    (hsigned : ∀ c ∈ s.signed, c ∈ s'.signed) : s'.Remembers := by
  intro r hr
  obtain ⟨c, hc, hrec⟩ := h r (hcache r hr)
  exact ⟨c, hsigned c hc, hrec⟩

/-- A credential that was checked is remembered. -/
theorem Remembers.add (h : s.Remembers) (heven : cred.signature.length % 2 = 0)
    (hsigned : cred ∈ s.signed) (beyond : ℤ) :
    Remembers ⟨s.ctx.sbcastCacheAdd cred beyond, s.signed⟩ := by
  intro r hr
  simp only [SbcastCtx.sbcastCacheAdd, mem_append, mem_singleton] at hr
  rcases hr with hr | rfl
  · exact h r hr
  · exact ⟨cred, hsigned, by rw [sigNum_even beyond heven]⟩

/-- After a call only credentials that were checked are remembered, and the call was right to
    accept the credential if it did. -/
structure Sound (s : Sbcast) (cred : SbcastCred) (e : Extracted) : Prop where
  remembers : Remembers ⟨e.ctx, if e.checked then cred :: s.signed else s.signed⟩
  signed : e.ok = true → e.checked = true ∨ cred ∈ s.signed
  inside : e.outside = false

theorem Remembers.extract (h : s.Remembers)
    (ho : s.Distinct (.extract now cred blockNo rc beyond)) :
    s.Sound cred (s.ctx.extractSbcastCred now cred blockNo rc beyond) := by
  obtain ⟨heven, hone, hreplayed⟩ := ho
  have hsum : sigNum beyond 0 cred.signature = ((sigNum 0 0 cred.signature).1, false) :=
    sigNum_even beyond heven
  obtain ⟨hsub, hfound⟩ := scanCache_spec now cred.expiration (sigNum 0 0 cred.signature).1
    s.ctx.cacheList
  simp only [SbcastCtx.extractSbcastCred, hsum]
  set l := (scanCache now cred.expiration (sigNum 0 0 cred.signature).1 s.ctx.cacheList).1
  have hscan : Remembers ⟨⟨l, s.ctx.restartTime⟩, s.signed⟩ := h.mono hsub fun _ hc => hc
  -- One more credential that was checked does no harm.
  have hcons {ctx : SbcastCtx} (h : Remembers ⟨ctx, s.signed⟩) :
      Remembers ⟨ctx, cred :: s.signed⟩ :=
    h.mono (fun _ hr => hr) fun _ hc => mem_cons_of_mem _ hc
  split_ifs with hexpired hfirst hrc hmatch hlate herror
  · exact ⟨h, by simp, rfl⟩
  · exact ⟨(hcons h).add heven mem_cons_self beyond, by simp, rfl⟩
  · exact ⟨h, by simp, rfl⟩
  · -- The record is that of a credential with the same expiration and sum, so of this one.
    obtain ⟨c, hc, hrec⟩ := h _ (hfound hmatch)
    simp only [SbcastCache.mk.injEq] at hrec
    refine ⟨hscan, fun _ => .inr ?_, rfl⟩
    rwa [← hone c hc hrec.1.symm hrec.2.symm]
  · exact ⟨hscan, by simp, rfl⟩
  · exact ⟨hscan, by simp, rfl⟩
  · cases rc with
    | success => exact ⟨(hcons hscan).add heven mem_cons_self beyond, by simp, rfl⟩
    | replayed =>
      have hsigned : cred ∈ s.signed := hreplayed (.inl rfl)
      exact ⟨hscan.add heven hsigned beyond, fun _ => .inr hsigned, rfl⟩
    | error => exact absurd rfl herror
    | noText =>
      have hsigned : cred ∈ s.signed := hreplayed (.inr rfl)
      exact ⟨hscan.add heven hsigned beyond, fun _ => .inr hsigned, rfl⟩

theorem Remembers.exec {o : SbcastOp} (h : s.Remembers) (ho : s.Distinct o) :
    (s.exec o).Remembers ∧ s.Authentic o := by
  cases o with
  | extract now cred blockNo rc beyond =>
    have hsound := h.extract ho
    exact ⟨hsound.remembers, hsound.signed, hsound.inside⟩
  | restart now => exact ⟨by simp [Remembers, Sbcast.exec], trivial⟩

/-- From a node that remembers nothing, each credential that is accepted was signed, and nothing
    outside of signatures is read, if signatures have even lengths, those of different credentials
    can be told apart, and only those that were checked are found to be replayed, or bad without a
    text. -/
theorem accepted_signed (restartTime : ℤ) (os : List SbcastOp)
    (hrun : Run.Admissible exec Distinct ⟨⟨[], restartTime⟩, []⟩ os) :
    Run.Admissible exec Authentic ⟨⟨[], restartTime⟩, []⟩ os :=
  Run.admissible_of_invariant (I := Remembers) (fun _ _ h ho => h.exec ho) (by simp [Remembers])
    hrun

/-- The two blocks of a file. -/
theorem accepted_signed_two_blocks :
    Run.Admissible exec Authentic ⟨⟨[], 0⟩, []⟩
      [.extract 100 ⟨90, 200, 7, ['a'], [1, 2, 3, 4]⟩ 1 .success 0,
        .extract 101 ⟨90, 200, 7, ['a'], [1, 2, 3, 4]⟩ 2 .error 0] :=
  accepted_signed 0 _ (by decide)

/-- A credential for another job, which nobody signed, is accepted with the second block: its
    expiration and the sum of its bytes are those of the first one. -/
theorem forged_accepted :
    ¬ Run.Admissible exec Authentic ⟨⟨[], 0⟩, []⟩
      [.extract 100 ⟨90, 200, 7, ['a'], [1, 2, 3, 4]⟩ 1 .success 0,
        .extract 101 ⟨90, 200, 8, ['b'], [3, 4, 1, 2]⟩ 2 .error 0] := by
  decide

end Sbcast

end Slurm

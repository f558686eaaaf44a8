/-
AutoSql/Artifact/Registry.lean

The local registry: a directory with one file per artifact, named by its digest.

`put` writes the bytes of an artifact into a temporary file, links that under the
name of the artifact and removes the temporary name.  Readers take a file only if
it has one link and at most four megabytes.  The directory is a table of names over
numbered files, so that a file has as many links as it has names; only directories
and files with the right owner and mode are modelled, and the umask is taken to
leave the owner's permissions alone.  A lock serialises the calls, so one call is
looked at here.

Three things can go wrong.  The number of bytes that `write` transfers is not looked
at, so a short write is published and reported as success.  Between `linkat` and
`unlinkat` the file has two links; if the call ends there, readers refuse the file
and no later call repairs it.  And what may be written is twice as large as what is
read back.  (A reader also reports an error of its own if the directory was never
made.)

Main result: `put_keeps_iff`.
-/
import AutoSql.Lib.Fallible
import AutoSql.Lib.GoMap
import AutoSql.Lib.Proc

namespace AutoSql.Registry

open Proc List Option GoMap

/-! ### Directories -/

/-- The directory: whether it is there, its names, and the contents of the files. -/
structure World where
  made : Bool
  names : GoMap Nat
  files : List GoString

namespace World

/-- The number of names of a file. -/
def links (w : World) (i : Nat) : Nat := (w.names.entries.filter fun p => p.2 = i).length

def content (w : World) (i : Nat) : GoString := w.files.getD i []

/-- `openat` with `O_CREAT|O_EXCL`. -/
def create (name : GoString) (w : World) : Option World :=
  if w.names.contains name then none
  else some { w with names := w.names.insert name w.files.length, files := w.files ++ [[]] }

/-- `write` to an empty file; `n` bytes are transferred. -/
def write (name : GoString) (b : GoString) (n : Nat) (w : World) : Option World :=
  (w.names.get? name).map fun i => { w with files := w.files.set i (b.take n) }

def link (old new : GoString) (w : World) : Option World :=
  if w.names.contains new then none else (w.names.get? old).map fun i => { w with names := w.names.insert new i }

def unlink (name : GoString) (w : World) : Option World :=
  if w.names.contains name then some { w with names := w.names.erase name } else none

end World

inductive Error
  | digest
  | io
  | trust
  | notFound
  | collision
  | parse
  | stored
  deriving DecidableEq

/-- What the package knows about artifacts: their digest, reading and writing them, and the check of a stored one.  A text is
read only if writing what was read gives it back. -/
structure Codec (Art : Type) where
  digest : Art → GoString
  marshal : Art → Option GoString
  parse : GoString → Option Art
  validateStored : Art → Bool
  canonical : ∀ b a, parse b = some a → marshal a = some b

/-- `digestPattern`. -/
def isDigest (s : GoString) : Bool :=
  GoString.hasPrefix s (str "sha256:") && s.length == 71 && (s.drop 7).all fun b => isDigit b || (0x61 ≤ b && b ≤ 0x66)

variable {Art : Type} (c : Codec Art)

/-- The artifact of a verified token: it was read from its own bytes and passed the check of stored artifacts. -/
structure VerifiedArtifact where
  artifact : Art
  bytes : GoString
  parsed : c.parse bytes = some artifact
  stored : c.validateStored artifact = true
  digest : isDigest (c.digest artifact) = true

/-- What `readFD` reads at most. -/
def readLimit : Nat := 4 <<< 20

def fileName (digest : GoString) : GoString := digest ++ str ".json"

/-! ### Reading -/

/-- `LocalRegistry.Get`. -/
def get (w : World) (d : GoString) : Except Error Art :=
  if !isDigest d then .error .digest
  else if !w.made then .error .io
  else
    match w.names.get? (fileName d) with
    | none => .error .notFound
    | some i =>
      if w.links i ≠ 1 then .error .trust
      else if readLimit < (w.content i).length then .error .io
      else
        match c.parse (w.content i) with
        | none => .error .parse
        | some a =>
          if c.digest a ≠ d then .error .collision
          else if !c.validateStored a then .error .stored
          else .ok a

/-! ### Writing -/

/-- `MkdirAll`, `Chmod`, and syncing the parent. -/
def makeDir : Proc World Error Unit := do
  call (fun w => some { w with made := true }) .io
  ask .io
  ask .io

/-- The directory is made if it is missing and opened, and the lock is taken. -/
def prepare : Proc World Error Unit := do
  let w ← look
  onlyIf (w.made = false) makeDir
  ask .io
  ask .io

/-- An existing file must have the bytes of the artifact. -/
def checkOld (b : GoString) (i : Nat) : Proc World Error Unit := do
  let w ← look
  ask .trust
  if w.links i ≠ 1 then fail .trust
  else do
    ask .io
    if readLimit < (w.content i).length then fail .io
    else if w.content i = b then pure () else fail .collision

/-- The temporary file is checked, written and synced; `n` is the number of bytes the write transfers. -/
def fill (tmp b : GoString) (n : Nat) : Proc World Error Unit := do
  ask .trust
  call (World.write tmp b n) .io
  ask .io

/-- The deferred removal of the temporary file, on the way out with an error. -/
def cleanup (tmp : GoString) (e : Error) : Proc World Error Unit := do
  let _ ← attempt (World.unlink tmp) .io
  fail e

/-- The temporary file is made, linked and removed. -/
def publish (tmp target b : GoString) (n : Nat) : Proc World Error Unit := do
  ask .io
  call (World.create tmp) .io
  onError (do
      fill tmp b n
      call (World.link tmp target) .collision
      call (World.unlink tmp) .io)
    (cleanup tmp)
  ask .io

def tmpName (random : GoString) : GoString := str ".artifact-" ++ GoString.hexEncode random

/-- The part of `LocalRegistry.Put` under the lock. -/
def store (v : VerifiedArtifact c) (random : GoString) (n : Nat) : Proc World Error Unit := do
  let target := fileName (c.digest v.artifact)
  let opened ← attempt some .io
  let w ← look
  match opened, w.names.get? target with
  | true, some i => checkOld v.bytes i
  | _, _ => publish (tmpName random) target v.bytes n

/-- `LocalRegistry.Put`, with the random bytes `random`. -/
def put (v : VerifiedArtifact c) (random : GoString) (n : Nat) : Proc World Error Unit := do
  prepare
  store c v random n

/-! ### Files and their names -/

namespace World

/-- Every name is the name of a file. -/
def WF (w : World) : Prop := ∀ k i, w.names.get? k = some i → i < w.files.length

variable {w : World} {tmp target b : GoString} {n : Nat}

/-- The directory with the temporary file. -/
def withTemp (w : World) (tmp content : GoString) : World :=
  { w with names := w.names.insert tmp w.files.length, files := w.files ++ [content] }

/-- The directory with the file under both names. -/
def withBoth (w : World) (tmp target content : GoString) : World :=
  { w with names := (w.names.insert tmp w.files.length).insert target w.files.length, files := w.files ++ [content] }

theorem create_fresh (h : w.names.get? tmp = none) : w.create tmp = some (w.withTemp tmp []) := by
  simp [create, GoMap.contains, h, withTemp]

theorem write_temp : (w.withTemp tmp []).write tmp b n = some (w.withTemp tmp (b.take n)) := by
  simp [write, withTemp]

theorem link_temp {content : GoString} (ht : w.names.get? target = none) (hne : tmp ≠ target) :
    (w.withTemp tmp content).link tmp target = some (w.withBoth tmp target content) := by
  simp [link, withTemp, withBoth, GoMap.contains, get?_insert, hne.symm, ht]

end World

/-! ### The calls of `publish` -/

def took : Reply → Bool
  | .done => true
  | .failed t => t
  | .stopped t => t

/-- The file is linked under the name of the artifact. -/
def Linked (R : Nat → Reply) : Prop := (∀ k < 5, R k = .done) ∧ took (R 5) = true

/-- The temporary name is removed after that, by the call itself or by the deferred one. -/
def unlinks (R : Nat → Reply) : Bool :=
  match R 5 with
  | .done => took (R 6) || (R 6 == .failed false && took (R 7))
  | .failed _ => took (R 6)
  | .stopped _ => false

section Publish

variable {w : World} {R : Nat → Reply} {tmp target b : GoString} {n : Nat}

/-- The file is not there under the name of the artifact, and the directory stays. -/
def World.Without (w : World) (target : GoString) (u : World) : Prop := u.names.get? target = none ∧ u.made = w.made

theorem World.without_temp (htarget : w.names.get? target = none) (hne : tmp ≠ target) (content : GoString) :
    w.Without target (w.withTemp tmp content) := by
  refine ⟨?_, rfl⟩
  rw [World.withTemp, get?_insert_ne hne.symm]
  exact htarget

theorem World.eq_of_unlink {u : World} (h : w.unlink tmp = some u) : u = { w with names := w.names.erase tmp } := by
  unfold World.unlink at h
  split_ifs at h
  exact (some.inj h).symm

variable {P : World → Prop}

/-- A call keeps what its effect keeps. -/
theorem holds_call {act : World → Option World} {e : Error} (h : ∀ u u', P u → act u = some u' → P u') :
    Leaves (fun _ => True) P (call act e) P :=
  Holds.call (fun u hu u' => h u u' hu) (fun _ hu _ => hu) fun _ u hu => ⟨hu, fun u' => h u u' hu⟩

theorem holds_ask (e : Error) : Leaves (fun _ => True) P (ask e) P :=
  Holds.ask (fun _ => id) fun _ _ => id

theorem holds_attempt {act : World → Option World} (h : ∀ u u', P u → act u = some u' → P u') :
    Leaves (fun _ => True) P (attempt act Error.io) P :=
  Holds.onError ((holds_call h).seq (Holds.pure _ fun _ => id)) (fun _ => id) fun _ => Holds.pure _ fun _ => id

theorem holds_cleanup {e : Error} (h : ∀ u u', P u → u.unlink tmp = some u' → P u') :
    Leaves (fun _ => True) P (cleanup tmp e) P :=
  (holds_attempt h).bind fun _ => Holds.fail fun _ => id

theorem World.Without.unlink (u u' : World) (h : w.Without target u) (hu : u.unlink tmp = some u') : w.Without target u' := by
  rw [World.eq_of_unlink hu]
  refine ⟨?_, h.2⟩
  show (u.names.erase tmp).get? target = none
  rw [get?_erase, h.1, ite_self]

theorem cleanup_ne_ok (e : Error) (y : Sys World) (a : Unit) : (cleanup tmp e y).1 ≠ .ok a := by
  rw [cleanup, run_bind]
  cases (attempt (World.unlink tmp) Error.io y).1 <;> exact nofun

/-- The call does not succeed, and what it leaves has `P`. -/
def Fails (P : World → Prop) (r : Outcome Error Unit × Sys World) : Prop := P r.2.state ∧ ∀ a, r.1 ≠ .ok a

theorem Fails.bind {P : World → Prop} {p : Proc World Error Unit} {f : Unit → Proc World Error Unit} {y : Sys World}
    (h : Fails P (p y)) : Fails P ((p >>= f) y) := by
  obtain ⟨hok, hs⟩ := bind_ne_ok (f := f) h.2
  exact ⟨hs ▸ h.1, hok⟩

/-- A program that fails is cleaned up after. -/
theorem Fails.onError {p : Proc World Error Unit} {y : Sys World} (h : Fails (w.Without target) (p y)) :
    Fails (w.Without target) (onError p (cleanup tmp) y) := by
  unfold Proc.onError
  revert h
  rcases p y with ⟨r, y'⟩
  rintro ⟨hs, hp⟩
  cases r with
  | ok a => exact absurd rfl (hp a)
  | error e => exact ⟨(holds_cleanup World.Without.unlink).always (fun _ => trivial) hs, cleanup_ne_ok e y'⟩
  | stopped => exact ⟨hs, nofun⟩

theorem state_call (act : World → Option World) (e : Error) (u : World) (R : Nat → Reply) :
    (call act e ⟨u, R⟩).2.state = if took (R 0) then (act u).getD u else u := by
  simp only [call]
  rcases R 0 with _ | t | t
  · cases act u <;> rfl
  all_goals rfl

/-- A call that is not done may have taken effect. -/
theorem fails_call {P : World → Prop} {act : World → Option World} {e : Error} (h : R 0 ≠ .done) (hw : P w)
    (hact : took (R 0) = true → ∀ u, act w = some u → P u) : Fails P (call act e ⟨w, R⟩) := by
  refine ⟨?_, call_ne_ok h⟩
  rw [state_call]
  split_ifs with ht
  · cases hu : act w with
    | none => exact hw
    | some u => exact hact ht u hu
  · exact hw

theorem fails_ask {P : World → Prop} {e : Error} (h : R 0 ≠ .done) (hw : P w) : Fails P (ask e ⟨w, R⟩) :=
  fails_call h hw fun _ _ hu => some.inj hu ▸ hw

/-- Filling succeeds exactly if its three calls are done. -/
theorem fill_done (h : ∀ k < 3, R k = .done) :
    fill tmp b n ⟨w.withTemp tmp [], R⟩ = (.ok (), ⟨w.withTemp tmp (b.take n), fun k => R (k + 3)⟩) := by
  rw [fill, run_ask (h 0 (by decide)), run_call (R := fun k => R (k + 1)) (h 1 (by decide)) World.write_temp]
  simp only [ask, call, h 2 (by decide)]

theorem fill_not_done {P : World → Prop} (htemp : ∀ x, P (w.withTemp tmp x)) (h : ¬ ∀ k < 3, R k = .done) :
    Fails P (fill tmp b n ⟨w.withTemp tmp [], R⟩) := by
  rw [fill]
  by_cases h0 : R 0 = .done
  · rw [run_ask h0]
    by_cases h1 : R 1 = .done
    · rw [run_call (R := fun k => R (k + 1)) h1 World.write_temp]
      refine fails_ask (fun h2 => h fun k hk => ?_) (htemp _)
      match k, hk with
      | 0, _ => exact h0
      | 1, _ => exact h1
      | 2, _ => exact h2
    · refine .bind (fails_call h1 (htemp []) fun _ u hu => ?_)
      rw [World.write_temp] at hu
      exact some.inj hu ▸ htemp _
  · exact .bind (fails_ask h0 (htemp []))

/-- The last part of `publish`: both names, then one. -/
def relink (tmp target : GoString) : Proc World Error Unit := do
  onError (do
      call (World.link tmp target) .collision
      call (World.unlink tmp) .io)
    (cleanup tmp)
  ask .io

theorem publish_done (htmp : w.names.get? tmp = none) (h : ∀ k < 5, R k = .done) :
    publish tmp target b n ⟨w, R⟩ = relink tmp target ⟨w.withTemp tmp (b.take n), fun k => R (k + 5)⟩ := by
  rw [publish, run_ask (h 0 (by decide)), run_call (R := fun k => R (k + 1)) (h 1 (by decide)) (World.create_fresh htmp)]
  have hfill : fill tmp b n ⟨w.withTemp tmp [], fun k => R (k + 2)⟩ = _ := fill_done fun k hk => h (k + 2) (by omega)
  rw [relink, run_bind, run_bind]
  have : onError (do
      fill tmp b n
      call (World.link tmp target) .collision
      call (World.unlink tmp) .io) (cleanup tmp) ⟨w.withTemp tmp [], fun k => R (k + 2)⟩ =
    onError (do
      call (World.link tmp target) .collision
      call (World.unlink tmp) .io) (cleanup tmp) ⟨w.withTemp tmp (b.take n), fun k => R (k + 5)⟩ := by
    unfold onError
    rw [run_bind, hfill]
  rw [this]

/-- If a call before the link is not done, the file does not appear. -/
theorem publish_early (htmp : w.names.get? tmp = none) (htarget : w.names.get? target = none) (hne : tmp ≠ target)
    (h : ¬ ∀ k < 5, R k = .done) : Fails (w.Without target) (publish tmp target b n ⟨w, R⟩) := by
  have htemp : ∀ x, w.Without target (w.withTemp tmp x) := World.without_temp htarget hne
  rw [publish]
  by_cases h0 : R 0 = .done
  · rw [run_ask h0]
    by_cases h1 : R 1 = .done
    · rw [run_call (R := fun k => R (k + 1)) h1 (World.create_fresh htmp)]
      -- the temporary file is there, and filling it fails
      refine .bind (.onError (.bind (fill_not_done htemp fun hd => h fun k hk => ?_)))
      match k, hk with
      | 0, _ => exact h0
      | 1, _ => exact h1
      | k + 2, hk => exact hd k (by omega)
    · -- the temporary file may have been made
      refine .bind (fails_call h1 ⟨htarget, rfl⟩ fun _ u hu => ?_)
      rw [World.create_fresh htmp] at hu
      exact some.inj hu ▸ htemp []
  · exact .bind (fails_ask h0 ⟨htarget, rfl⟩)

/-! ### Both names, then one -/

theorem attempt_state (act : World → Option World) (u : World) (R : Nat → Reply) :
    (attempt act Error.io ⟨u, R⟩).2.state = if took (R 0) then (act u).getD u else u := by
  rw [← state_call act .io]
  simp only [attempt, onError, run_bind]
  cases (call act Error.io ⟨u, R⟩).1 <;> rfl

theorem cleanup_state (e : Error) (u : World) (R : Nat → Reply) :
    (cleanup tmp e ⟨u, R⟩).2.state = if took (R 0) then (u.unlink tmp).getD u else u := by
  rw [← attempt_state, cleanup, run_bind]
  cases (attempt (World.unlink tmp) Error.io ⟨u, R⟩).1 <;> rfl

namespace World

/-- The directory with the file under the name of the artifact only. -/
def withTarget (w : World) (tmp target content : GoString) : World :=
  { w with names := ((w.names.insert tmp w.files.length).insert target w.files.length).erase tmp, files := w.files ++ [content] }

theorem unlink_both (hne : tmp ≠ target) (content : GoString) :
    (w.withBoth tmp target content).unlink tmp = some (w.withTarget tmp target content) := by
  simp [unlink, withBoth, withTarget, GoMap.contains, get?_insert, hne]

theorem unlink_target (content : GoString) : (w.withTarget tmp target content).unlink tmp = none := by
  simp [unlink, withTarget, GoMap.contains, get?_erase]

end World

/-- What is there after the link has taken effect. -/
theorem relink_took (htarget : w.names.get? target = none) (hne : tmp ≠ target) (x : GoString) (h : took (R 5) = true) :
    (relink tmp target ⟨w.withTemp tmp x, fun k => R (k + 5)⟩).2.state =
      if unlinks R then w.withTarget tmp target x else w.withBoth tmp target x := by
  have hlink : (w.withTemp tmp x).link tmp target = _ := World.link_temp htarget hne
  have hunlink := World.unlink_both (w := w) hne x
  rw [relink, state_bind fun _ => ask_state _]
  unfold unlinks
  rcases h5 : R 5 with _ | t | t
  · rcases h6 : R 6 with _ | t | t
    · simp [onError, run_bind, call, h5, h6, hlink, hunlink, took]
    · cases t with
      | false =>
        simp [onError, run_bind, call, h5, h6, hlink, took, cleanup_state, hunlink]
      | true => simp [onError, run_bind, call, h5, h6, hlink, took, cleanup_state, hunlink, World.unlink_target]
    · simp [onError, run_bind, call, h5, h6, hlink, hunlink, took]
  · have ht : t = true := by simpa [h5, took] using h
    simp [onError, run_bind, call, h5, hlink, hunlink, ht, cleanup_state]
  · have ht : t = true := by simpa [h5, took] using h
    simp [onError, run_bind, call, h5, hlink, ht]

/-- If the link has not taken effect, the file does not appear. -/
theorem relink_not_took (htarget : w.names.get? target = none) (hne : tmp ≠ target) (x : GoString) (h : took (R 5) = false) :
    Fails (w.Without target) (relink tmp target ⟨w.withTemp tmp x, fun k => R (k + 5)⟩) := by
  have h5 : R 5 ≠ .done := by
    intro h5
    rw [h5] at h
    cases h
  refine .bind (.onError (.bind (fails_call h5 (World.without_temp htarget hne x) fun htook => ?_)))
  rw [h] at htook
  cases htook

/-- **Publishing**, when the link takes effect. -/
theorem publish_linked (htmp : w.names.get? tmp = none) (htarget : w.names.get? target = none) (hne : tmp ≠ target)
    (h : Linked R) : (publish tmp target b n ⟨w, R⟩).2.state =
      if unlinks R then w.withTarget tmp target (b.take n) else w.withBoth tmp target (b.take n) := by
  rw [publish_done htmp h.1]
  exact relink_took htarget hne _ h.2

/-- **Publishing**, when it does not. -/
theorem publish_not_linked (htmp : w.names.get? tmp = none) (htarget : w.names.get? target = none) (hne : tmp ≠ target)
    (h : ¬ Linked R) : Fails (w.Without target) (publish tmp target b n ⟨w, R⟩) := by
  by_cases hd : ∀ k < 5, R k = .done
  · rw [publish_done htmp hd]
    refine relink_not_took htarget hne _ ?_
    rw [← Bool.not_eq_true]
    exact fun h5 => h ⟨hd, h5⟩
  · exact publish_early htmp htarget hne hd

end Publish

/-! ### Names and links -/

namespace World

variable {w : World}

/-- `k` is the only name of the file `i`. -/
def Single (w : World) (i : Nat) (k : GoString) : Prop := ∀ k', w.names.get? k' = some i ↔ k' = k

theorem links_eq_one {i : Nat} {k : GoString} (hk : w.names.get? k = some i) : w.links i = 1 ↔ w.Single i k := by
  have hmem : ∀ k', (k', i) ∈ w.names.entries.filter (fun p => p.2 = i) ↔ w.names.get? k' = some i := by
    intro k'
    rw [get?_eq_some]
    simp
  rw [links, length_eq_one_iff]
  constructor
  · rintro ⟨p, hp⟩ k'
    have hkp := (hmem k).mpr hk
    rw [hp, mem_singleton] at hkp
    rw [← hmem, hp, ← hkp]
    simp
  · intro h
    refine ⟨(k, i), perm_singleton.mp ?_⟩
    rw [perm_ext_iff_of_nodup ((List.Nodup.of_map _ w.names.nodup_keys).filter _) (nodup_singleton _)]
    rintro ⟨k', j⟩
    rw [mem_singleton, Prod.mk.injEq]
    constructor
    · intro hp
      obtain rfl : j = i := by simpa using (mem_filter.mp hp).2
      exact ⟨(h k').mp ((hmem k').mp hp), rfl⟩
    · rintro ⟨rfl, rfl⟩
      exact (hmem k').mpr ((h k').mpr rfl)

variable {u : World}

/-- What a call of `publish` can do. -/
inductive Effect (tmp target b : GoString) (n : Nat) (w : World) : World → Prop
  | create : Effect tmp target b n w (w.withTemp tmp [])
  | write {i : Nat} : w.names.get? tmp = some i → Effect tmp target b n w { w with files := w.files.set i (b.take n) }
  | link {i : Nat} : w.names.get? target = none → w.names.get? tmp = some i →
    Effect tmp target b n w { w with names := w.names.insert target i }
  | unlink : Effect tmp target b n w { w with names := w.names.erase tmp }

section Effect

variable {tmp target b : GoString} {n : Nat}

theorem Effect.of_create (h : w.create tmp = some u) : Effect tmp target b n w u := by
  unfold World.create at h
  split_ifs at h
  exact some.inj h ▸ .create

theorem Effect.of_write (h : w.write tmp b n = some u) : Effect tmp target b n w u := by
  obtain ⟨i, hi, rfl⟩ := map_eq_some_iff.mp h
  exact .write hi

theorem Effect.of_link (h : w.link tmp target = some u) : Effect tmp target b n w u := by
  unfold World.link at h
  split_ifs at h with hnew
  obtain ⟨i, hi, rfl⟩ := map_eq_some_iff.mp h
  exact .link (by simpa [GoMap.contains] using hnew) hi

theorem Effect.of_unlink (h : w.unlink tmp = some u) : Effect tmp target b n w u := eq_of_unlink h ▸ .unlink

theorem WF.effect (h : w.WF) (hu : Effect tmp target b n w u) : u.WF := by
  intro k j hk
  cases hu with
  | create =>
    simp only [withTemp, length_append, length_singleton, get?_insert] at hk ⊢
    split_ifs at hk
    · cases hk
      omega
    · exact Nat.lt_succ_of_lt (h k j hk)
  | write =>
    rw [length_set]
    exact h k j hk
  | link _ hi =>
    rw [get?_insert] at hk
    split_ifs at hk
    · cases hk
      exact h tmp _ hi
    · exact h k j hk
  | unlink =>
    rw [get?_erase] at hk
    split_ifs at hk
    exact h k j hk

end Effect

end World

variable {P : World → Prop} {n : Nat} {w : World} {v : VerifiedArtifact c} {random : GoString}

theorem holds_prepare (h : ∀ u : World, P u → P { u with made := true }) : Leaves (fun _ => True) P prepare P := by
  refine Holds.bind (Holds.look fun _ => id) fun w => ?_
  refine (Holds.onlyIf (fun _ => ?_) fun _ _ => id).seq ((holds_ask _).seq (holds_ask _))
  refine (holds_call ?_).seq ((holds_ask _).seq (holds_ask _))
  rintro u _ hu ⟨⟩
  exact h u hu

/-- What every effect of `publish` keeps, `publish` keeps. -/
theorem holds_publish {tmp target b : GoString} (h : ∀ u u', P u → u.Effect tmp target b n u' → P u') :
    Leaves (fun _ => True) P (publish tmp target b n) P := by
  have hunlink : ∀ u u', P u → u.unlink tmp = some u' → P u' := fun u u' hu hu' => h u u' hu (.of_unlink hu')
  refine (holds_ask _).seq ((holds_call fun u u' hu hu' => h u u' hu (.of_create hu')).seq (Holds.seq ?_ (holds_ask _)))
  refine Holds.onError ?_ (fun _ => id) fun e => holds_cleanup hunlink
  refine Holds.seq ?_ ((holds_call fun u u' hu hu' => h u u' hu (.of_link hu')).seq (holds_call hunlink))
  exact (holds_ask _).seq ((holds_call fun u u' hu hu' => h u u' hu (.of_write hu')).seq (holds_ask _))

theorem holds_checkOld (b : GoString) (i : Nat) : Leaves (fun _ => True) P (checkOld b i) P := by
  refine Holds.bind (Holds.look fun _ => id) fun w => ?_
  refine (holds_ask _).seq ?_
  split_ifs
  · exact Holds.fail fun _ => id
  · exact (holds_ask _).seq (Holds.fail fun _ => id)
  · exact (holds_ask _).seq (Holds.pure () fun _ => id)
  · exact (holds_ask _).seq (Holds.fail fun _ => id)

variable {c}

/-- What every effect under the lock keeps, the part under the lock keeps. -/
theorem holds_store (h : ∀ u u', P u → u.Effect (tmpName random) (fileName (c.digest v.artifact)) v.bytes n u' → P u') :
    Leaves (fun _ => True) P (store c v random n) P := by
  refine Holds.bind (holds_attempt fun u u' hu hu' => some.inj hu' ▸ hu) fun opened => ?_
  refine Holds.bind (Holds.look fun _ => id) fun w => ?_
  split
  · exact holds_checkOld _ _
  · exact holds_publish h

/-- Nothing happens if the temporary name is taken. -/
theorem holds_publish_taken {tmp target b : GoString} (htmp : w.names.get? tmp ≠ none) :
    Holds (fun _ => True) (· = w) (publish tmp target b n) (fun _ _ => False) (· = w) := by
  have hcreate : w.create tmp = none := by
    obtain ⟨i, hi⟩ := ne_none_iff_exists'.mp htmp
    simp [World.create, GoMap.contains, hi]
  refine (holds_ask _).seq (Holds.seq (M := fun _ => False) (Holds.call ?_ ?_ ?_) Holds.absurd)
  · rintro u rfl u' hu'
    rw [hcreate] at hu'
    cases hu'
  · exact fun u hu _ => hu
  · rintro - u rfl
    refine ⟨rfl, fun u' hu' => ?_⟩
    rw [hcreate] at hu'
    cases hu'

theorem holds_store_taken (htmp : w.names.get? (tmpName random) ≠ none) :
    Leaves (fun _ => True) (· = w) (store c v random n) (· = w) := by
  refine Holds.bind (holds_attempt fun u u' hu hu' => some.inj hu' ▸ hu) fun opened => ?_
  refine Holds.bind (Q := fun _ u => u = w) (Holds.look fun _ hu => hu) fun u => ?_
  split
  · exact holds_checkOld _ _
  · exact (holds_publish_taken htmp).post fun _ _ => False.elim

/-- Every run of `put` leaves a well-formed directory. -/
theorem put_wf {y : Sys World} (h : y.state.WF) : (put c v random n y).2.state.WF :=
  Holds.always ((holds_prepare fun _ hu => hu).seq (holds_store fun _ _ => World.WF.effect)) (fun _ => trivial) h

/-! ### The first calls -/

theorem ask_ask_state (_ : Unit) (y : Sys World) : ((ask .io >>= fun _ => ask .io : Proc World Error Unit) y).2.state = y.state := by
  rw [state_bind fun _ => ask_state _, ask_state]

theorem prepare_eq (w : World) (R : Nat → Reply) :
    prepare ⟨w, R⟩ = (onlyIf (w.made = false) makeDir >>= fun _ => ask .io >>= fun _ => ask .io) ⟨w, R⟩ := rfl

theorem makeDir_state {R : Nat → Reply} (h : w.made = false) :
    (makeDir ⟨w, R⟩).2.state = { w with made := took (R 0) } := by
  rw [makeDir, state_bind ask_ask_state, state_call]
  cases took (R 0)
  · simp [← h]
  · rfl

/-- The directory is there afterwards if it was before, or if making it had its effect. -/
theorem prepare_state (w : World) (R : Nat → Reply) :
    (prepare ⟨w, R⟩).2.state = { w with made := w.made || took (R 0) } := by
  rw [prepare_eq, state_bind ask_ask_state]
  cases hm : w.made with
  | true =>
    cases w
    cases hm
    rfl
  | false => simp [onlyIf, makeDir_state hm]

theorem prepare_ok {R : Nat → Reply} {y : Sys World} (h : prepare ⟨w, R⟩ = (.ok (), y)) :
    y.state = { w with made := true } := by
  have hstate := prepare_state w R
  rw [h] at hstate
  rw [hstate]
  cases hm : w.made with
  | true => rfl
  | false =>
    by_cases h0 : R 0 = .done
    · rw [h0]
      rfl
    · -- the directory could not be made
      have hmake := (bind_ne_ok (f := fun _ => (ask .io >>= fun _ => ask .io : Proc World Error Unit))
        (call_ne_ok (f := fun w : World => some { w with made := true }) (e := Error.io) (y := ⟨w, R⟩) h0)).1
      rw [prepare_eq, onlyIf, if_pos hm] at h
      exact absurd (congrArg Prod.fst h) ((bind_ne_ok hmake).1 ())

/-! ### Reading what was written -/

section Keeps

variable {v : VerifiedArtifact c} {w : World}

/-- The file of the artifact is not there. -/
def Absent (v : VerifiedArtifact c) (w : World) : Prop := w.names.get? (fileName (c.digest v.artifact)) = none

/-- The file `i` has the name of the artifact, no other name, and its bytes. -/
def Present (v : VerifiedArtifact c) (i : Nat) (w : World) : Prop :=
  w.Single i (fileName (c.digest v.artifact)) ∧ w.content i = v.bytes

variable {i : Nat} {y : Sys World} {target tmp : GoString}

theorem Present.get? (h : Present v i w) : w.names.get? (fileName (c.digest v.artifact)) = some i :=
  (h.1 _).mpr rfl

theorem get_absent (hm : w.made = true) (h : Absent v w) : get c w (c.digest v.artifact) = .error .notFound := by
  have := v.digest
  simp [get, this, hm, show w.names.get? _ = none from h]

/-- Reading returns the artifact exactly if its file is there with one name, its bytes, and not too long. -/
theorem get_ok_iff (hm : w.made = true) (hi : w.names.get? (fileName (c.digest v.artifact)) = some i) :
    get c w (c.digest v.artifact) = .ok v.artifact ↔ Present v i w ∧ v.bytes.length ≤ readLimit := by
  have hd := v.digest
  rw [get, hd, hm]
  simp only [Bool.not_true, Bool.false_eq_true, if_false, hi]
  constructor
  · intro h
    rw [Fallible.guard_ok, Fallible.guard_ok, not_not, not_lt] at h
    obtain ⟨hlinks, hlen, h⟩ := h
    cases hp : c.parse (w.content i) with
    | none => rw [hp] at h; cases h
    | some a =>
      rw [hp] at h
      simp only [Fallible.guard_ok] at h
      obtain ⟨-, -, ha⟩ := h
      cases ha
      -- an artifact has one text
      have htext := c.canonical _ _ hp
      rw [c.canonical _ _ v.parsed, some.injEq] at htext
      exact ⟨⟨(World.links_eq_one hi).mp hlinks, htext.symm⟩, htext ▸ hlen⟩
  · rintro ⟨⟨hsingle, hcontent⟩, hlen⟩
    rw [if_neg (by rw [(World.links_eq_one hi).mpr hsingle]; simp), hcontent, if_neg (by omega), v.parsed]
    simp [v.stored]

theorem get_present (hm : w.made = true) (h : Present v i w) (hlen : v.bytes.length ≤ readLimit) :
    get c w (c.digest v.artifact) = .ok v.artifact := (get_ok_iff hm h.get?).mpr ⟨h, hlen⟩

theorem tmpName_ne (v : VerifiedArtifact c) (random : GoString) : tmpName random ≠ fileName (c.digest v.artifact) := by
  intro h
  have hd := v.digest
  rw [isDigest, Bool.and_eq_true, Bool.and_eq_true, GoString.hasPrefix, isPrefixOf_iff_prefix] at hd
  obtain ⟨t, ht⟩ := hd.1.1
  have hhead := congrArg List.head? h
  rw [tmpName, fileName, ← ht] at hhead
  exact absurd hhead (by simp [show str ".artifact-" = 0x2E :: str "artifact-" by decide,
    show str "sha256:" = 0x73 :: str "ha256:" by decide])

/-- What holds after the first calls and is kept under the lock holds after the call. -/
theorem put_after (hp : P (prepare y).2.state)
    (hs : Leaves (fun _ => True) P (store c v random n) P) : P (put c v random n y).2.state := by
  rw [put, run_bind]
  cases (prepare y).1 with
  | ok _ => exact hs.always (fun _ => trivial) hp
  | error e => exact hp
  | stopped => exact hp

theorem put_made (y : Sys World) : (put c v random n y).2.state.made = (y.state.made || took (y.replies 0)) := by
  refine put_after (P := fun u => u.made = (y.state.made || took (y.replies 0))) ?_ (holds_store fun u u' hu hu' => ?_)
  · exact congrArg World.made (prepare_state y.state y.replies)
  · cases hu' <;> exact hu

/-! ### A file that is there -/

/-- The names other than the temporary one are those of `w`, and so is the content of the file `i`. -/
structure World.SameFile (w : World) (tmp : GoString) (i : Nat) (u : World) : Prop where
  wf : u.WF
  names : ∀ k, k ≠ tmp → u.names.get? k = w.names.get? k
  temp : u.names.get? tmp ≠ some i
  content : u.content i = w.content i

namespace World.SameFile

variable {tmp target b : GoString} {n i : Nat} {u u' : World}

theorem refl (hw : w.WF) (htmp : w.names.get? tmp = none) : w.SameFile tmp i w :=
  ⟨hw, fun _ _ => rfl, by simp [htmp], rfl⟩

/-- The file `i` has a name already, so it is not linked under that. -/
theorem effect (h : w.SameFile tmp i u) (hi : u.names.get? target = some i) (hu : u.Effect tmp target b n u') : w.SameFile tmp i u' := by
  have hlt := h.wf _ _ hi
  have hwf := h.wf.effect hu
  cases hu with
  | create =>
    have htemp : (u.withTemp tmp []).names.get? tmp ≠ some i := by
      simp [World.withTemp]
      omega
    refine ⟨hwf, fun k hk => (get?_insert_ne hk).trans (h.names k hk), htemp, ?_⟩
    rw [← h.content]
    simp [World.content, World.withTemp, getElem?_append_left hlt]
  | @write j hj =>
    have hji : j ≠ i := fun hji => h.temp (hji ▸ hj)
    refine { h with wf := hwf, content := ?_ }
    rw [← h.content]
    simp [World.content, getElem?_set_ne hji]
  | link ht => cases ht.symm.trans hi
  | unlink =>
    refine ⟨hwf, fun k hk => ?_, by simp [get?_erase], h.content⟩
    rw [get?_erase, if_neg hk]
    exact h.names k hk

theorem single_iff (h : w.SameFile tmp i u) (htmp : w.names.get? tmp = none) : u.Single i target ↔ w.Single i target := by
  have hnames : ∀ k, u.names.get? k = some i ↔ w.names.get? k = some i := by
    intro k
    by_cases hk : k = tmp
    · rw [hk, htmp]
      simp [h.temp]
    · rw [h.names k hk]
  exact forall_congr' fun k => by rw [hnames]

end World.SameFile

/-- Under the lock, a file that is there is not touched. -/
theorem holds_store_file (hi : w.names.get? (fileName (c.digest v.artifact)) = some i) :
    Leaves (fun _ => True) (w.SameFile (tmpName random) i) (store c v random n) (w.SameFile (tmpName random) i) := by
  have htarget : ∀ u, w.SameFile (tmpName random) i u → u.names.get? (fileName (c.digest v.artifact)) = some i := by
    intro u hu
    rw [hu.names _ (tmpName_ne v random).symm]
    exact hi
  exact holds_store fun u u' hu => hu.effect (htarget u hu)

/-- **A file that is there** stays there, and stays what it is. -/
theorem put_file (hw : y.state.WF) (hi : y.state.names.get? (fileName (c.digest v.artifact)) = some i) :
    (put c v random n y).2.state.names.get? (fileName (c.digest v.artifact)) = some i ∧
      (Present v i (put c v random n y).2.state ↔ Present v i y.state) := by
  have hprep := prepare_state y.state y.replies
  by_cases htmp : y.state.names.get? (tmpName random) = none
  · have hsame : World.SameFile { y.state with made := y.state.made || took (y.replies 0) } (tmpName random) i
        (put c v random n y).2.state := by
      refine put_after ?_ (holds_store_file hi)
      rw [hprep]
      exact .refl hw htmp
    refine ⟨(hsame.names _ (tmpName_ne v random).symm).trans hi, ?_⟩
    exact and_congr (hsame.single_iff htmp) (by rw [hsame.content]; rfl)
  · have hsame := put_after (v := v) (n := n) (P := (· = _)) hprep (holds_store_taken htmp)
    rw [hsame]
    exact ⟨hi, Iff.rfl⟩

/-! ### A new file -/

theorem World.single_withTarget {x : GoString} (hw : w.WF) (hne : tmp ≠ target) :
    (w.withTarget tmp target x).Single w.files.length target := by
  intro k
  show (((w.names.insert tmp _).insert target _).erase tmp).get? k = _ ↔ _
  rw [get?_erase, get?_insert, get?_insert]
  by_cases hk : k = tmp
  · simp [hk, hne]
  · by_cases hk' : k = target
    · simp [hk', hne.symm]
    · have : w.names.get? k ≠ some w.files.length := fun h => Nat.lt_irrefl _ (hw k _ h)
      simp [hk, hk', this]

theorem World.content_new (l : List GoString) (x : GoString) : (l ++ [x]).getD l.length [] = x := by
  simp

theorem not_single_withBoth {x k : GoString} (hne : tmp ≠ target) :
    ¬ (w.withBoth tmp target x).Single w.files.length k := by
  intro h
  have h₁ := (h tmp).mp (by simp [World.withBoth, get?_insert, hne])
  have h₂ := (h target).mp (by simp [World.withBoth])
  exact hne (h₁.trans h₂.symm)

/-! ### The call without faults -/

/-- The call after the first ones, with the replies `R`. -/
theorem put_run {u : World} {R : Nat → Reply} (h : prepare y = (.ok (), ⟨u, R⟩)) : put c v random n y = match R 0 with
      | .stopped _ => (.stopped, ⟨u, fun k => R (k + 1)⟩)
      | .done =>
        match u.names.get? (fileName (c.digest v.artifact)) with
        | some i => checkOld v.bytes i ⟨u, fun k => R (k + 1)⟩
        | none => publish (tmpName random) (fileName (c.digest v.artifact)) v.bytes n ⟨u, fun k => R (k + 1)⟩
      | .failed _ => publish (tmpName random) (fileName (c.digest v.artifact)) v.bytes n ⟨u, fun k => R (k + 1)⟩ := by
  rw [put, run_bind, h]
  rw [store]
  rcases h0 : R 0 with _ | t | t
  · simp only [attempt, onError, run_bind, call, h0]
    cases hget : u.names.get? (fileName (c.digest v.artifact)) <;> simp only [pure, look, hget]
  · simp only [attempt, onError, run_bind, call, h0, getD_some, ite_self]
    rfl
  · simp only [attempt, onError, run_bind, call, h0, getD_some, ite_self]

theorem publish_all_done {b : GoString} (htmp : w.names.get? tmp = none)
    (htarget : w.names.get? target = none) (hne : tmp ≠ target) :
    publish tmp target b n ⟨w, fun _ => .done⟩ = (.ok (), ⟨w.withTarget tmp target (b.take n), fun _ => .done⟩) := by
  have hlink : (w.withTemp tmp (b.take n)).link tmp target = _ := World.link_temp htarget hne
  have hunlink := World.unlink_both (w := w) hne (b.take n)
  rw [publish_done htmp fun _ _ => rfl]
  simp [relink, run_bind, onError, call, ask, hlink, hunlink]

/-- **A call without faults** succeeds if the file of the artifact is not there or as it should be, and makes it readable. -/
theorem put_done (hw : w.WF) (hm : w.made = true) (hlen : v.bytes.length ≤ readLimit)
    (hn : v.bytes.length ≤ n) (hrandom : w.names.get? (tmpName random) = none) (h : Absent v w ∨ ∃ i, Present v i w) :
    (put c v random n ⟨w, fun _ => .done⟩).1 = .ok () ∧
      get c (put c v random n ⟨w, fun _ => .done⟩).2.state (c.digest v.artifact) = .ok v.artifact := by
  have hne := tmpName_ne v random
  have hprepare : prepare ⟨w, fun _ => .done⟩ = (.ok (), ⟨w, fun _ => .done⟩) := by
    rw [prepare_eq, onlyIf, if_neg (by simp [hm])]
    rfl
  rw [put_run hprepare]
  rcases h with h | ⟨i, h⟩
  · rw [show w.names.get? (fileName (c.digest v.artifact)) = none from h]
    rw [publish_all_done hrandom h hne, take_of_length_le hn]
    refine ⟨rfl, get_present hm ⟨World.single_withTarget hw hne, ?_⟩ hlen⟩
    exact World.content_new w.files v.bytes
  · rw [h.get?]
    have hlinks := (World.links_eq_one h.get?).mpr h.1
    have hrun : checkOld v.bytes i ⟨w, fun _ => .done⟩ = (.ok (), ⟨w, fun _ => .done⟩) := by
      simp only [checkOld, run_bind, look, ask, call, hlinks, h.2, ne_eq, not_true_eq_false, if_false, not_lt.mpr hlen, if_true]
      rfl
    dsimp only
    rw [hrun]
    exact ⟨rfl, get_present hm h hlen⟩

/-! ### What a call leaves -/

/-- **What the registry should do.**  After a call that returned, the artifact is read; after any call it is read or not found;
and a later call without faults succeeds and makes it readable. -/
structure Keeps (v : VerifiedArtifact c) (r : Outcome Error Unit × Sys World) : Prop where
  returned : r.1 = .ok () → get c r.2.state (c.digest v.artifact) = .ok v.artifact
  stopped : get c r.2.state (c.digest v.artifact) = .error .notFound ∨ get c r.2.state (c.digest v.artifact) = .ok v.artifact
  again : ∀ random n, r.2.state.names.get? (tmpName random) = none → v.bytes.length ≤ n →
    (put c v random n ⟨r.2.state, fun _ => .done⟩).1 = .ok () ∧
      get c (put c v random n ⟨r.2.state, fun _ => .done⟩).2.state (c.digest v.artifact) = .ok v.artifact

theorem exists_length (l : List GoString) : ∃ m, ∀ s ∈ l, s.length ≤ m := by
  induction l with
  | nil => exact ⟨0, by simp⟩
  | cons s l ih =>
    obtain ⟨m, hm⟩ := ih
    refine ⟨s.length + m, ?_⟩
    rw [forall_mem_cons]
    exact ⟨by omega, fun t ht => (hm t ht).trans (by omega)⟩

/-- There is always a name that is not taken: one that is longer than all names. -/
theorem exists_fresh (w : World) : ∃ random, w.names.get? (tmpName random) = none := by
  obtain ⟨m, hm⟩ := exists_length w.names.keys
  refine ⟨List.replicate (m + 1) 0, get?_eq_none.mpr fun hmem => ?_⟩
  have := hm _ hmem
  simp only [tmpName, length_append, GoString.length_hexEncode, length_replicate] at this
  omega

theorem made_of_get (h : get c w (c.digest v.artifact) = .error .notFound ∨ get c w (c.digest v.artifact) = .ok v.artifact) :
    w.made = true := by
  by_contra hm
  have hget : get c w (c.digest v.artifact) = .error .io := by simp [get, v.digest, hm]
  rcases h with h | h <;> rw [hget] at h <;> cases h

theorem present_of_get (h : get c w (c.digest v.artifact) = .ok v.artifact) :
    ∃ i, Present v i w ∧ v.bytes.length ≤ readLimit := by
  have hm := made_of_get (.inr h)
  cases hi : w.names.get? (fileName (c.digest v.artifact)) with
  | none =>
    rw [get_absent hm hi] at h
    cases h
  | some i => exact ⟨i, (get_ok_iff hm hi).mp h⟩

section Final

variable {r : Outcome Error Unit × Sys World}

theorem Keeps.length (h : Keeps v r) : v.bytes.length ≤ readLimit := by
  obtain ⟨random, hrandom⟩ := exists_fresh r.2.state
  obtain ⟨-, hget⟩ := h.again random _ hrandom le_rfl
  obtain ⟨i, -, hlen⟩ := present_of_get hget
  exact hlen

/-- A call that leaves no file. -/
theorem keeps_absent (hw : r.2.state.WF) (h : Absent v r.2.state) (hr : r.1 ≠ .ok ()) :
    Keeps v r ↔ v.bytes.length ≤ readLimit ∧ r.2.state.made = true := by
  constructor
  · exact fun hk => ⟨hk.length, made_of_get hk.stopped⟩
  · rintro ⟨hlen, hm⟩
    exact ⟨fun hok => absurd hok hr, .inl (get_absent hm h), fun random n hrandom hn => put_done hw hm hlen hn hrandom (.inl h)⟩

/-- A call that leaves a file with the name of the artifact. -/
theorem keeps_file (hw : r.2.state.WF) (h : r.2.state.names.get? (fileName (c.digest v.artifact)) = some i) :
    Keeps v r ↔ v.bytes.length ≤ readLimit ∧ r.2.state.made = true ∧ Present v i r.2.state := by
  constructor
  · intro hk
    have hm := made_of_get hk.stopped
    refine ⟨hk.length, hm, ?_⟩
    rcases hk.stopped with hs | hs
    · exfalso
      unfold get at hs
      rw [v.digest, hm, h] at hs
      simp only [Bool.not_true, Bool.false_eq_true, if_false] at hs
      split_ifs at hs
      · cases hs
      · cases hs
      · split at hs
        · cases hs
        · split_ifs at hs <;> cases hs
    · exact ((get_ok_iff hm h).mp hs).1
  · rintro ⟨hlen, hm, hp⟩
    have hget := get_present hm hp hlen
    exact ⟨fun _ => hget, .inr hget, fun random n hrandom hn => put_done hw hm hlen hn hrandom (.inr ⟨i, hp⟩)⟩

end Final

/-- The call links a new file; `R` are the replies to the calls of `publish`. -/
def Publishes (v : VerifiedArtifact c) (random : GoString) (y : Sys World) (R : Nat → Reply) : Prop :=
  Absent v y.state ∧ y.state.names.get? (tmpName random) = none ∧
    ∃ u R', prepare y = (.ok (), ⟨u, R'⟩) ∧ (∀ t, R' 0 ≠ .stopped t) ∧ (∀ k, R k = R' (k + 1)) ∧ Linked R

section Publishes

variable {random : GoString} {n : Nat} {y : Sys World} {R : Nat → Reply}

theorem put_run_absent {u : World} (h : prepare y = (.ok (), ⟨u, R⟩)) (hu : Absent v u) (h0 : ∀ t, R 0 ≠ .stopped t) :
    put c v random n y = publish (tmpName random) (fileName (c.digest v.artifact)) v.bytes n ⟨u, fun k => R (k + 1)⟩ := by
  rw [put_run h]
  cases hr : R 0 with
  | done =>
    rw [show u.names.get? (fileName (c.digest v.artifact)) = none from hu]
  | failed t => rfl
  | stopped t => exact absurd hr (h0 t)

/-- What is left is readable exactly if the file was written to the end and its temporary name is gone. -/
theorem keeps_new {u : World} {r : Outcome Error Unit × Sys World} {gone : Bool} (hr : r.2.state.WF) (hu : u.WF) (hm : u.made = true)
    (h : r.2.state = if gone then u.withTarget (tmpName random) (fileName (c.digest v.artifact)) (v.bytes.take n)
      else u.withBoth (tmpName random) (fileName (c.digest v.artifact)) (v.bytes.take n)) :
    Keeps v r ↔ v.bytes.length ≤ readLimit ∧ v.bytes.length ≤ n ∧ gone = true := by
  have hne := tmpName_ne v random
  have htake : v.bytes.take n = v.bytes ↔ v.bytes.length ≤ n := by
    refine ⟨fun ht => ?_, take_of_length_le⟩
    have := congrArg List.length ht
    rw [length_take] at this
    omega
  cases gone with
  | true =>
    have hsingle := World.single_withTarget (x := v.bytes.take n) hu hne
    rw [keeps_file hr (by rw [h]; exact (hsingle _).mpr rfl), h, ← htake]
    have hcontent : World.content (u.withTarget (tmpName random) (fileName (c.digest v.artifact)) (v.bytes.take n)) u.files.length =
        v.bytes.take n := World.content_new _ _
    exact and_congr_right fun _ => ⟨fun ⟨_, hp⟩ => ⟨hcontent ▸ hp.2, rfl⟩, fun hp => ⟨hm, hsingle, hcontent.trans hp.1⟩⟩
  | false =>
    rw [keeps_file hr (by rw [h]; exact get?_insert_self), h]
    exact and_congr_right fun _ => ⟨fun ⟨_, hp⟩ => absurd hp.1 (not_single_withBoth hne), fun hp => absurd hp.2 (by simp)⟩

/-- A call that links a new file. -/
theorem keeps_publishes (hw : y.state.WF) (h : Publishes v random y R) :
    Keeps v (put c v random n y) ↔ v.bytes.length ≤ readLimit ∧ v.bytes.length ≤ n ∧ unlinks R = true := by
  obtain ⟨habsent, htmp, u, R', hprep, h0, hR, hlinked⟩ := h
  obtain rfl : R = fun k => R' (k + 1) := funext hR
  have hu : u = { y.state with made := true } := prepare_ok (R := y.replies) hprep
  have hnames : u.names = y.state.names := by rw [hu]
  have huwf : u.WF := by
    rw [hu]
    exact hw
  rw [← hnames] at htmp
  have habsent' : Absent v u := by
    rw [Absent, hnames]
    exact habsent
  have hstate := publish_linked (b := v.bytes) (n := n) htmp habsent' (tmpName_ne v random) hlinked
  rw [← put_run_absent hprep habsent' h0] at hstate
  exact keeps_new (put_wf hw) huwf (by rw [hu]) hstate

/-- A call that finds no file and links none. -/
theorem put_absent (habsent : Absent v y.state) (h : ∀ R, ¬ Publishes v random y R) :
    Absent v (put c v random n y).2.state ∧ (put c v random n y).1 ≠ .ok () := by
  have hprep := prepare_state y.state y.replies
  rcases hp : prepare y with ⟨r, ⟨u, R⟩⟩
  have hu : Absent v u := by
    have : u = (prepare y).2.state := by rw [hp]
    rw [this, hprep]
    exact habsent
  cases r with
  | ok _ =>
    by_cases h0 : ∀ t, R 0 ≠ .stopped t
    · rw [put_run_absent hp hu h0]
      obtain rfl : u = { y.state with made := true } := prepare_ok (R := y.replies) hp
      by_cases htmp : y.state.names.get? (tmpName random) = none
      · have hlinked : ¬ Linked fun k => R (k + 1) := fun hl => h _ ⟨habsent, htmp, _, R, hp, h0, fun _ => rfl, hl⟩
        obtain ⟨hwithout, hok⟩ := publish_not_linked (w := { y.state with made := true }) htmp habsent
          (tmpName_ne v random) hlinked
        exact ⟨hwithout.1, hok ()⟩
      · have htaken : Holds (fun _ => True) (· = { y.state with made := true })
            (publish (tmpName random) (fileName (c.digest v.artifact)) v.bytes n) _ _ := holds_publish_taken htmp
        have hok : ∀ a, (publish (tmpName random) (fileName (c.digest v.artifact)) v.bytes n
            ⟨{ y.state with made := true }, fun k => R (k + 1)⟩).1 ≠ .ok a :=
          fun a => htaken.of_ok (fun _ => trivial) rfl
        refine ⟨?_, hok ()⟩
        rw [htaken.of_not_ok (fun _ => trivial) rfl hok]
        exact habsent
    · rw [not_forall] at h0
      obtain ⟨t, ht⟩ := h0
      rw [not_ne_iff] at ht
      rw [put_run hp, ht]
      exact ⟨hu, nofun⟩
  | error e =>
    rw [put, run_bind, hp]
    exact ⟨hu, nofun⟩
  | stopped =>
    rw [put, run_bind, hp]
    exact ⟨hu, nofun⟩

/-- **When the registry keeps what it accepted.**  Its file is not too long, the directory is there or could be made, a file
that is there already is as it should be, and a file that is linked is written to the end and has its temporary name removed. -/
theorem put_keeps_iff (hw : y.state.WF) : Keeps v (put c v random n y) ↔
    v.bytes.length ≤ readLimit ∧ (y.state.made = true ∨ took (y.replies 0) = true) ∧
      (∀ i, y.state.names.get? (fileName (c.digest v.artifact)) = some i → Present v i y.state) ∧
      ∀ R, Publishes v random y R → v.bytes.length ≤ n ∧ unlinks R = true := by
  have hmade : (put c v random n y).2.state.made = _ := put_made y
  have hfinal : (put c v random n y).2.state.WF := put_wf hw
  rw [← Bool.or_eq_true, ← hmade]
  cases hi : y.state.names.get? (fileName (c.digest v.artifact)) with
  | some i =>
    obtain ⟨htarget, hpresent⟩ : (put c v random n y).2.state.names.get? _ = _ ∧ _ := put_file hw hi
    rw [keeps_file hfinal htarget, hpresent]
    have hno : ∀ R, ¬ Publishes v random y R := by
      rintro R ⟨habsent, -⟩
      rw [Absent, hi] at habsent
      cases habsent
    simp [hno]
  | none =>
    by_cases hp : ∃ R, Publishes v random y R
    · obtain ⟨R, hR⟩ := hp
      have hkeeps := keeps_publishes (n := n) hw hR
      constructor
      · intro hk
        refine ⟨hk.length, made_of_get hk.stopped, (fun i hi' => nomatch hi'), fun R' hR' => ?_⟩
        exact ((keeps_publishes hw hR').mp hk).2
      · rintro ⟨hlen, -, -, h⟩
        exact hkeeps.mpr ⟨hlen, h R hR⟩
    · rw [not_exists] at hp
      obtain ⟨habsent, hok⟩ := put_absent hi hp
      rw [keeps_absent hfinal habsent hok]
      simp [hp]

end Publishes

end Keeps

/-! ### Samples -/

section Samples

/-- One artifact that is its own text. -/
def plainCodec : Codec GoString where
  digest _ := str "sha256:" ++ List.replicate 64 0x30
  marshal := some
  parse b := if b = str "a" then some b else none
  validateStored _ := true
  canonical b a h := by
    split_ifs at h
    exact congrArg some (some.inj h).symm

def plainArtifact : VerifiedArtifact plainCodec where
  artifact := str "a"
  bytes := str "a"
  parsed := rfl
  stored := rfl
  digest := by decide +kernel

/-- The directory is there, and empty. -/
def emptyWorld : World := ⟨true, .empty, []⟩

theorem put_keeps_iff_plain : emptyWorld.WF ∧ (Keeps plainArtifact (put plainCodec plainArtifact [0] 1 ⟨emptyWorld, fun _ => .done⟩) ↔
    plainArtifact.bytes.length ≤ readLimit ∧ (emptyWorld.made = true ∨ took .done = true) ∧
      (∀ i, emptyWorld.names.get? (fileName (plainCodec.digest plainArtifact.artifact)) = some i → Present plainArtifact i emptyWorld) ∧
      ∀ R, Publishes plainArtifact [0] ⟨emptyWorld, fun _ => .done⟩ R → plainArtifact.bytes.length ≤ 1 ∧ unlinks R = true) :=
  have hw : emptyWorld.WF := fun _ _ h => nomatch h
  ⟨hw, put_keeps_iff (y := ⟨emptyWorld, fun _ => .done⟩) hw⟩

/-- The call stops between `linkat` and `unlinkat`. -/
def stopAfterLink (k : Nat) : Reply := if k = 9 then .stopped false else .done

/-- A write that transfers nothing is reported as a success, and what was accepted cannot be read; a call that stops after the
link leaves a file that is refused, also by later calls. -/
theorem put_not_kept : (put plainCodec plainArtifact [0] 0 ⟨emptyWorld, fun _ => .done⟩).1 = .ok () ∧
      get plainCodec (put plainCodec plainArtifact [0] 0 ⟨emptyWorld, fun _ => .done⟩).2.state
        (plainCodec.digest plainArtifact.artifact) = .error .parse ∧
      get plainCodec (put plainCodec plainArtifact [0] 1 ⟨emptyWorld, stopAfterLink⟩).2.state
        (plainCodec.digest plainArtifact.artifact) = .error .trust ∧ (put plainCodec plainArtifact [1] 1
        ⟨(put plainCodec plainArtifact [0] 1 ⟨emptyWorld, stopAfterLink⟩).2.state, fun _ => .done⟩).1 = .error .trust := by
  decide +kernel

end Samples

end AutoSql.Registry

import Slos.Core
import Slos.Machine

/-!
# The mailboxes

`push_mail` and `pull_mail` of `mailbox.c` on the two cores. A core stands before one of the
statements of a call: taking the lock, testing the status, reading or writing the letter, writing the
status, releasing the lock. A core that finds the lock taken, or that finds in `push_mail` that the
letter has not been read, tries again. `pushed` and `returned` record the calls that have completed.
-/

namespace Slos.Mailbox
open Machine

inductive LetterType
  | empty
  | taskStat
  | taskOdev
  deriving DecidableEq

inductive LetterStatus
  | read
  | notRead
  deriving DecidableEq

structure MailboxStruct where
  status : LetterStatus
  letter : LetterType
  deriving DecidableEq

inductive Loc
  | outside
  | pushAcquire (letter : LetterType)
  | pushTest (letter : LetterType)
  | pushLetter (letter : LetterType)
  | pushStatus (letter : LetterType)
  | pushRelease (letter : LetterType)
  | pullAcquire
  | pullTest
  | pullLetter
  | pullStatus (letter : LetterType)
  | pullRelease (letter : LetterType)
  deriving DecidableEq

/-- A mailbox and the calls on it are indexed by the core that pulls from it. -/
structure Mail where
  mailbox : Core → MailboxStruct
  mailboxLock : Bool
  loc : Core → Loc
  pushed : Core → List LetterType
  returned : Core → List LetterType

inductive Step
  | push (c : Core) (letter : LetterType)
  | pull (c : Core)
  | run (c : Core)
  deriving DecidableEq

def initMailbox : Mail where
  mailbox _ := { status := .read, letter := .empty }
  mailboxLock := false
  loc _ := .outside
  pushed _ := []
  returned _ := []

namespace Mail

def goto (s : Mail) (c : Core) (l : Loc) : Mail := { s with loc := Function.update s.loc c l }

def setMailbox (s : Mail) (m : Core) (b : MailboxStruct) : Mail :=
  { s with mailbox := Function.update s.mailbox m b }

/-- One attempt of `spin_lock_acquire`. -/
def acquire (s : Mail) (c : Core) (l : Loc) : Mail :=
  if s.mailboxLock then s else { s with mailboxLock := true }.goto c l

def release (s : Mail) (c : Core) : Mail := { s with mailboxLock := false }.goto c .outside

end Mail

/-- The next statement of a core inside a call. -/
def exec (s : Mail) (c : Core) : Option Mail :=
  match s.loc c with
  | .outside => none
  | .pushAcquire letter => some (s.acquire c (.pushTest letter))
  | .pushTest letter =>
      if (s.mailbox c.other).status = .read then some (s.goto c (.pushLetter letter)) else some s
  | .pushLetter letter =>
      some ((s.setMailbox c.other { s.mailbox c.other with letter := letter }).goto c
        (.pushStatus letter))
  | .pushStatus letter =>
      some ((s.setMailbox c.other { s.mailbox c.other with status := .notRead }).goto c
        (.pushRelease letter))
  | .pushRelease letter =>
      some ({ s with pushed := Function.update s.pushed c.other (s.pushed c.other ++ [letter]) }.release c)
  | .pullAcquire => some (s.acquire c .pullTest)
  | .pullTest =>
      if (s.mailbox c).status = .read then some (s.goto c (.pullRelease .empty))
      else some (s.goto c .pullLetter)
  | .pullLetter => some (s.goto c (.pullStatus (s.mailbox c).letter))
  | .pullStatus letter =>
      some ((s.setMailbox c { s.mailbox c with status := .read }).goto c (.pullRelease letter))
  | .pullRelease letter =>
      some ({ s with returned := Function.update s.returned c (s.returned c ++ [letter]) }.release c)

def step (s : Mail) : Step → Option Mail
  | .push c letter => if s.loc c = .outside then some (s.goto c (.pushAcquire letter)) else none
  | .pull c => if s.loc c = .outside then some (s.goto c .pullAcquire) else none
  | .run c => exec s c

/-- The core holds the lock. -/
def Loc.inside : Loc → Bool
  | outside | pushAcquire _ | pullAcquire => false
  | _ => true

/-- The letters of a list of results; `EMPTY` stands for none. -/
def letters (l : List LetterType) : List LetterType := l.filter (· ≠ .empty)

def pending (b : MailboxStruct) : List LetterType :=
  if b.status = .notRead then [b.letter] else []

/-- A letter taken out of the mailbox by a call that has not returned it yet. -/
def taking : Loc → List LetterType
  | .pullRelease letter => [letter]
  | _ => []

/-- A letter put into the mailbox by a call that has not completed yet. -/
def putting : Loc → List LetterType
  | .pushRelease letter => [letter]
  | _ => []

def Conserved (s : Mail) (m : Core) : Prop :=
  letters (s.returned m) ++ letters (taking (s.loc m)) ++ letters (pending (s.mailbox m)) =
    letters (s.pushed m) ++ letters (putting (s.loc m.other))

/-- What a core inside a call knows of the mailbox the call is about. -/
def Knows (s : Mail) (c : Core) : Prop :=
  match s.loc c with
  | .pushLetter _ => (s.mailbox c.other).status = .read
  | .pushStatus letter => s.mailbox c.other = ⟨.read, letter⟩
  | .pushRelease letter => s.mailbox c.other = ⟨.notRead, letter⟩
  | .pullLetter => (s.mailbox c).status = .notRead
  | .pullStatus letter => s.mailbox c = ⟨.notRead, letter⟩
  | .pullRelease _ => (s.mailbox c).status = .read
  | _ => True

structure Inv (s : Mail) : Prop where
  lock : s.mailboxLock = true ↔ ∃ c, (s.loc c).inside = true
  one : ∀ c, (s.loc c).inside = true → (s.loc c.other).inside = false
  knows : ∀ c, Knows s c
  conserved : ∀ m, Conserved s m

@[simp] theorem letters_nil : letters [] = [] := rfl

@[simp] theorem letters_append (k l : List LetterType) : letters (k ++ l) = letters k ++ letters l :=
  List.filter_append ..

theorem eq_notRead {st : LetterStatus} (h : st ≠ .read) : st = .notRead := by
  cases st with
  | read => exact absurd rfl h
  | notRead => rfl

theorem taking_of_outside {l : Loc} (h : l.inside = false) : taking l = [] := by
  cases l <;> simp_all [Loc.inside, taking]

theorem putting_of_outside {l : Loc} (h : l.inside = false) : putting l = [] := by
  cases l <;> simp_all [Loc.inside, putting]

theorem knows_of_outside {s : Mail} {c : Core} (h : (s.loc c).inside = false) : Knows s c := by
  unfold Knows
  split <;> simp_all [Loc.inside]

/-- It is enough to look at one core when the other is outside. -/
theorem inv_of_other_outside {t : Mail} (c : Core) (hother : (t.loc c.other).inside = false)
    (hlock : t.mailboxLock = (t.loc c).inside) (hknows : Knows t c) (hc : Conserved t c)
    (ho : Conserved t c.other) : Inv t := by
  have hin : ∀ d, (t.loc d).inside = true → d = c := by
    intro d hd
    rcases Core.eq_or_eq_other c d with h | h
    · exact h
    · rw [h, hother] at hd
      cases hd
  refine ⟨?_, fun d hd => ?_, fun d => ?_, fun d => ?_⟩
  · rw [hlock]
    exact ⟨fun h => ⟨c, h⟩, fun ⟨d, hd⟩ => hin d hd ▸ hd⟩
  · rw [hin d hd]
    exact hother
  · rcases Core.eq_or_eq_other c d with rfl | rfl
    · exact hknows
    · exact knows_of_outside hother
  · rcases Core.eq_or_eq_other c d with rfl | rfl
    · exact hc
    · exact ho

namespace Mail

@[simp] theorem goto_self (s : Mail) (c : Core) (l : Loc) : (s.goto c l).loc c = l :=
  Function.update_self ..

@[simp] theorem goto_other (s : Mail) (c : Core) (l : Loc) :
    (s.goto c l).loc c.other = s.loc c.other := Function.update_of_ne c.other_ne ..

@[simp] theorem goto_mailbox (s : Mail) (c : Core) (l : Loc) : (s.goto c l).mailbox = s.mailbox :=
  rfl

@[simp] theorem goto_mailboxLock (s : Mail) (c : Core) (l : Loc) :
    (s.goto c l).mailboxLock = s.mailboxLock := rfl

@[simp] theorem goto_pushed (s : Mail) (c : Core) (l : Loc) : (s.goto c l).pushed = s.pushed := rfl

@[simp] theorem goto_returned (s : Mail) (c : Core) (l : Loc) :
    (s.goto c l).returned = s.returned := rfl

@[simp] theorem setMailbox_self (s : Mail) (m : Core) (b : MailboxStruct) :
    (s.setMailbox m b).mailbox m = b := Function.update_self ..

@[simp] theorem setMailbox_other (s : Mail) (m : Core) (b : MailboxStruct) :
    (s.setMailbox m.other b).mailbox m = s.mailbox m := Function.update_of_ne m.ne_other ..

@[simp] theorem setMailbox_mailbox_other (s : Mail) (m : Core) (b : MailboxStruct) :
    (s.setMailbox m b).mailbox m.other = s.mailbox m.other := Function.update_of_ne m.other_ne ..

@[simp] theorem setMailbox_mailboxLock (s : Mail) (m : Core) (b : MailboxStruct) :
    (s.setMailbox m b).mailboxLock = s.mailboxLock := rfl

@[simp] theorem setMailbox_loc (s : Mail) (m : Core) (b : MailboxStruct) :
    (s.setMailbox m b).loc = s.loc := rfl

@[simp] theorem setMailbox_pushed (s : Mail) (m : Core) (b : MailboxStruct) :
    (s.setMailbox m b).pushed = s.pushed := rfl

@[simp] theorem setMailbox_returned (s : Mail) (m : Core) (b : MailboxStruct) :
    (s.setMailbox m b).returned = s.returned := rfl

end Mail

theorem inv_acquire {s : Mail} {c : Core} {l : Loc} (hs : Inv s) (hout : (s.loc c).inside = false)
    (hin : l.inside = true) (htaking : taking l = []) (hputting : putting l = [])
    (hknows : ∀ t, t.loc c = l → Knows t c) : Inv (s.acquire c l) := by
  unfold Mail.acquire
  split
  · exact hs
  · rename_i hfree
    have hnone : ∀ d, (s.loc d).inside = false := by
      intro d
      by_contra hd
      exact hfree (hs.lock.mpr ⟨d, by simpa using hd⟩)
    have hc := hs.conserved c
    have ho := hs.conserved c.other
    refine inv_of_other_outside c ?_ ?_ (hknows _ (Mail.goto_self ..)) ?_ ?_
    · simp [hnone]
    · simp [hin]
    · simpa [Conserved, htaking, taking_of_outside hout] using hc
    · simpa [Conserved, hputting, putting_of_outside hout] using ho

theorem inv_exec {s t : Mail} {c : Core} (hs : Inv s) (h : exec s c = some t) : Inv t := by
  have hknows := hs.knows c
  have hc := hs.conserved c
  have ho := hs.conserved c.other
  have hother := hs.one c
  have hlock : (s.loc c).inside = true → s.mailboxLock = true := fun h => hs.lock.mpr ⟨c, h⟩
  unfold exec at h
  unfold Knows at hknows
  split at h <;> rename_i hl <;> rw [hl] at hknows hother hlock
  · cases h
  · obtain rfl := Option.some.inj h
    exact inv_acquire hs (by simp [hl, Loc.inside]) rfl rfl rfl fun t ht => by simp [Knows, ht]
  · split at h
    · obtain rfl := Option.some.inj h
      apply inv_of_other_outside c <;> simp_all [Knows, Conserved, Loc.inside, taking, putting]
    · obtain rfl := Option.some.inj h
      exact hs
  · obtain rfl := Option.some.inj h
    apply inv_of_other_outside c <;>
      simp_all [Knows, Conserved, Loc.inside, taking, putting, pending]
  · obtain rfl := Option.some.inj h
    apply inv_of_other_outside c <;>
      simp_all [Knows, Conserved, Loc.inside, taking, putting, pending]
  · obtain rfl := Option.some.inj h
    apply inv_of_other_outside c <;>
      simp_all [Mail.release, Knows, Conserved, Loc.inside, taking, putting, Function.update_of_ne]
  · obtain rfl := Option.some.inj h
    exact inv_acquire hs (by simp [hl, Loc.inside]) rfl rfl rfl fun t ht => by simp [Knows, ht]
  · split at h
    · obtain rfl := Option.some.inj h
      apply inv_of_other_outside c <;>
        simp_all [Knows, Conserved, Loc.inside, taking, putting, letters]
    · rename_i hread
      have hstatus : (s.mailbox c).status = .notRead := eq_notRead hread
      obtain rfl := Option.some.inj h
      apply inv_of_other_outside c <;> simp_all [Knows, Conserved, Loc.inside, taking, putting]
  · have hbox : s.mailbox c = ⟨.notRead, (s.mailbox c).letter⟩ := by
      rw [← hknows]
    obtain rfl := Option.some.inj h
    refine inv_of_other_outside c ?_ ?_ (by simpa [Knows] using hbox) ?_ ?_ <;> clear hbox <;>
      simp_all [Conserved, Loc.inside, taking, putting]
  · obtain rfl := Option.some.inj h
    apply inv_of_other_outside c <;>
      simp_all [Knows, Conserved, Loc.inside, taking, putting, pending]
  · obtain rfl := Option.some.inj h
    apply inv_of_other_outside c <;>
      simp_all [Mail.release, Knows, Conserved, Loc.inside, taking, putting, Function.update_of_ne]

theorem inv_call {s : Mail} {c : Core} {l : Loc} (hs : Inv s) (hout : s.loc c = .outside)
    (hl : l.inside = false) : Inv (s.goto c l) := by
  have hin : (s.loc c).inside = false := by
    rw [hout, Loc.inside]
  have hinside : ∀ d, ((s.goto c l).loc d).inside = (s.loc d).inside := by
    intro d
    rcases Core.eq_or_eq_other c d with rfl | rfl
    · rw [Mail.goto_self, hl, hout, Loc.inside]
    · rw [Mail.goto_other]
  refine ⟨?_, fun d hd => ?_, fun d => ?_, fun d => ?_⟩
  · simp only [hinside]
    exact hs.lock
  · rw [hinside] at hd ⊢
    exact hs.one d hd
  · rcases Core.eq_or_eq_other c d with rfl | rfl
    · exact knows_of_outside (by rw [Mail.goto_self, hl])
    · simpa [Knows] using hs.knows c.other
  · have hd := hs.conserved d
    rcases Core.eq_or_eq_other c d with rfl | rfl
    · simpa [Conserved, taking_of_outside hl, taking_of_outside hin] using hd
    · simpa [Conserved, putting_of_outside hl, putting_of_outside hin] using hd

theorem inv_step {s t : Mail} {a : Step} (hs : Inv s) (h : step s a = some t) : Inv t := by
  cases a with
  | push c letter =>
      obtain ⟨hout, ht⟩ := Option.ite_none_right_eq_some.mp h
      obtain rfl := Option.some.inj ht
      exact inv_call hs hout rfl
  | pull c =>
      obtain ⟨hout, ht⟩ := Option.ite_none_right_eq_some.mp h
      obtain rfl := Option.some.inj ht
      exact inv_call hs hout rfl
  | run c => exact inv_exec hs h

theorem inv_init : Inv initMailbox := by
  refine ⟨iff_of_false Bool.false_ne_true fun ⟨_, hc⟩ => ?_, fun _ _ => rfl, fun _ => trivial,
    fun _ => rfl⟩
  cases hc

/-- The letters returned from a mailbox and the one still in it are the letters put into it, in
order. Between the status write and the release that ends its call a letter counts as returned or
pushed; when the lock is free there is no such letter. -/
structure ExactlyOnce (s : Mail) (m : Core) : Prop where
  delivered : letters (s.returned m ++ taking (s.loc m)) ++ letters (pending (s.mailbox m)) =
    letters (s.pushed m ++ putting (s.loc m.other))
  quiet : s.mailboxLock = false →
    letters (s.returned m) ++ letters (pending (s.mailbox m)) = letters (s.pushed m)
  returnsEmpty : s.loc m = .pullRelease .empty →
    pending (s.mailbox m) = [] ∧ letters (s.returned m) = letters (s.pushed m)

theorem exactlyOnce_of_inv {s : Mail} (hs : Inv s) (m : Core) : ExactlyOnce s m := by
  have hm := hs.conserved m
  refine ⟨by simpa [Conserved] using hm, fun hfree => ?_, fun hl => ?_⟩
  · have hout : ∀ c, (s.loc c).inside = false := by
      intro c
      by_contra hc
      rw [hs.lock.mpr ⟨c, by simpa using hc⟩] at hfree
      cases hfree
    simpa [Conserved, taking_of_outside (hout m), putting_of_outside (hout m.other)] using hm
  · have hread : pending (s.mailbox m) = [] := by
      have hknows := hs.knows m
      rw [Knows, hl] at hknows
      rw [pending, hknows]
      rfl
    have hother := hs.one m (by rw [hl]; rfl)
    refine ⟨hread, ?_⟩
    simpa [Conserved, hl, hread, putting_of_outside hother, taking, letters] using hm

theorem exactly_once (run : List Step) :
    Always step (fun s => ∀ m, ExactlyOnce s m) initMailbox run := by
  apply always_of_step Inv
  · exact fun s hs m => exactlyOnce_of_inv hs m
  · exact fun s a t hs h => inv_step hs h
  · exact inv_init

/-- A push of `EMPTY` completes and the pull after it returns `EMPTY`: no letter comes out. -/
theorem pushed_empty_not_returned :
    ∃ s, Machine.exec step initMailbox ([.push .cpu0 .empty] ++ List.replicate 5 (.run .cpu0) ++
        [.pull .cpu1] ++ List.replicate 5 (.run .cpu1)) = some s ∧
      letters (s.returned .cpu1) ++ pending (s.mailbox .cpu1) ≠ s.pushed .cpu1 := by
  have hrun : (Machine.exec step initMailbox ([.push .cpu0 .empty] ++
      List.replicate 5 (.run .cpu0) ++ [.pull .cpu1] ++ List.replicate 5 (.run .cpu1))).map
      (fun s => (letters (s.returned .cpu1) ++ pending (s.mailbox .cpu1), s.pushed .cpu1)) =
      some ([], [.empty]) := by decide
  obtain ⟨s, hs, hv⟩ := Option.map_eq_some_iff.mp hrun
  obtain ⟨hreturned, hpushed⟩ := Prod.mk.inj hv
  refine ⟨s, hs, ?_⟩
  rw [hreturned, hpushed]
  decide

/-- No core waits in `push_mail`, holding the lock, for a letter that only a core blocked on the
lock in `pull_mail` can read. -/
def NoDeadlock (s : Mail) : Prop :=
  ∀ c letter, s.loc c = .pushTest letter → (s.mailbox c.other).status ≠ .read →
    s.loc c.other ≠ .pullAcquire

def Loc.atPushAcquire : Loc → Bool
  | pushAcquire _ => true
  | _ => false

/-- A `push_mail` that gets the lock finds the letter before it read. -/
def PushFindsRead (s : Mail) : Step → Prop
  | .run c => (s.loc c).atPushAcquire = true → s.mailboxLock = false →
      (s.mailbox c.other).status = .read
  | _ => True

instance (s : Mail) : ∀ a, Decidable (PushFindsRead s a)
  | .push _ _ => isTrue trivial
  | .pull _ => isTrue trivial
  | .run c => inferInstanceAs (Decidable ((s.loc c).atPushAcquire = true → s.mailboxLock = false →
      (s.mailbox c.other).status = .read))

def Step.core : Step → Core
  | .push c _ | .pull c | .run c => c

theorem acquire_mailbox (s : Mail) (c : Core) (l : Loc) : (s.acquire c l).mailbox = s.mailbox := by
  unfold Mail.acquire
  split <;> rfl

theorem acquire_loc_other (s : Mail) (c : Core) (l : Loc) :
    (s.acquire c l).loc c.other = s.loc c.other := by
  unfold Mail.acquire
  split
  · rfl
  · exact Mail.goto_other ..

theorem step_loc_other {s t : Mail} {a : Step} (h : step s a = some t) :
    t.loc a.core.other = s.loc a.core.other := by
  cases a with
  | push c letter =>
      obtain ⟨-, ht⟩ := Option.ite_none_right_eq_some.mp h
      exact Option.some.inj ht ▸ Mail.goto_other ..
  | pull c =>
      obtain ⟨-, ht⟩ := Option.ite_none_right_eq_some.mp h
      exact Option.some.inj ht ▸ Mail.goto_other ..
  | run c =>
      simp only [step, exec] at h
      split at h <;> (try split at h) <;> cases h <;>
        first | rfl | exact acquire_loc_other .. | exact Mail.goto_other ..

theorem step_mailbox_of_outside {s t : Mail} {a : Step} (hout : (s.loc a.core).inside = false)
    (h : step s a = some t) : t.mailbox = s.mailbox := by
  cases a with
  | push c letter =>
      obtain ⟨-, ht⟩ := Option.ite_none_right_eq_some.mp h
      exact Option.some.inj ht ▸ rfl
  | pull c =>
      obtain ⟨-, ht⟩ := Option.ite_none_right_eq_some.mp h
      exact Option.some.inj ht ▸ rfl
  | run c =>
      simp only [Step.core] at hout
      simp only [step, exec] at h
      split at h <;> simp_all [Loc.inside] <;> exact h ▸ acquire_mailbox ..

structure FreeInv (s : Mail) : Prop extends Inv s where
  target : ∀ c letter, s.loc c = .pushTest letter → (s.mailbox c.other).status = .read

/-- The step with which a core comes to wait in `push_mail`. -/
theorem step_to_pushTest {s t : Mail} {a : Step} {letter : LetterType} (h : step s a = some t)
    (hl : t.loc a.core = .pushTest letter) :
    t = s ∨ a = .run a.core ∧ s.loc a.core = .pushAcquire letter ∧ s.mailboxLock = false ∧
      t.mailbox = s.mailbox := by
  cases a with
  | push c letter' =>
      obtain ⟨-, ht⟩ := Option.ite_none_right_eq_some.mp h
      obtain rfl := Option.some.inj ht
      simp [Step.core] at hl
  | pull c =>
      obtain ⟨-, ht⟩ := Option.ite_none_right_eq_some.mp h
      obtain rfl := Option.some.inj ht
      simp [Step.core] at hl
  | run c =>
      simp only [Step.core] at hl
      simp only [step, exec] at h
      cases hlock : s.mailboxLock <;> split at h <;> (try split at h) <;> cases h <;>
        simp_all [Mail.acquire, Mail.release, Step.core]

theorem free_step {s t : Mail} {a : Step} (hs : FreeInv s) (hC : PushFindsRead s a)
    (h : step s a = some t) : FreeInv t := by
  refine ⟨inv_step hs.toInv h, fun c letter hl => ?_⟩
  rcases Core.eq_or_eq_other a.core c with rfl | rfl
  · rcases step_to_pushTest h hl with rfl | ⟨ha, hacquire, hlock, hbox⟩
    · exact hs.target _ letter hl
    · rw [ha] at hC
      rw [hbox]
      exact hC (by rw [hacquire]; rfl) hlock
  · rw [step_loc_other h] at hl
    have hout := hs.one a.core.other (by rw [hl]; rfl)
    rw [Core.other_other] at hout
    rw [step_mailbox_of_outside hout h]
    exact hs.target _ letter hl

theorem no_deadlock_of_read {run : List Step} (h : StepsMeet step PushFindsRead initMailbox run) :
    Always step NoDeadlock initMailbox run := by
  refine always_of_stepsMeet FreeInv (fun s hs => ?_) (fun s a t => free_step) ?_ h
  · intro c letter hl hstatus
    exact absurd (hs.target c letter hl) hstatus
  · exact ⟨inv_init, fun c letter hl => by cases hl⟩

theorem no_deadlock_letter_pulled_between :
    Always step NoDeadlock initMailbox ([.push .cpu0 .taskStat] ++ List.replicate 5 (.run .cpu0) ++
      [.pull .cpu1] ++ List.replicate 5 (.run .cpu1) ++ [.push .cpu0 .taskOdev, .pull .cpu1] ++
      List.replicate 5 (.run .cpu0)) := no_deadlock_of_read (by decide)

/-- The second push waits for the first letter with the lock that the pull needs. -/
theorem deadlock_second_push :
    ∃ s, Machine.exec step initMailbox ([.push .cpu0 .taskStat] ++ List.replicate 5 (.run .cpu0) ++
      [.push .cpu0 .taskOdev, .run .cpu0, .pull .cpu1]) = some s ∧ ¬ NoDeadlock s := by
  have hrun : (Machine.exec step initMailbox ([.push .cpu0 .taskStat] ++
      List.replicate 5 (.run .cpu0) ++ [.push .cpu0 .taskOdev, .run .cpu0, .pull .cpu1])).map
      (fun s => (s.loc .cpu0, (s.mailbox .cpu1).status, s.loc .cpu1)) =
      some (.pushTest .taskOdev, .notRead, .pullAcquire) := by decide
  obtain ⟨s, hs, hv⟩ := Option.map_eq_some_iff.mp hrun
  simp only [Prod.mk.injEq] at hv
  obtain ⟨hpush, hstatus, hpull⟩ := hv
  refine ⟨s, hs, fun h => h .cpu0 .taskOdev hpush ?_ hpull⟩
  rw [Core.other, hstatus]
  decide

/-- Neither core leaves such a state. -/
theorem deadlock_stuck {s t : Mail} {a : Step} (hs : Inv s) (hdead : ¬ NoDeadlock s)
    (h : step s a = some t) : t = s := by
  simp only [NoDeadlock, not_forall, not_not] at hdead
  obtain ⟨c, letter, hpush, hstatus, hpull⟩ := hdead
  have hlock : s.mailboxLock = true := hs.lock.mpr ⟨c, by rw [hpush]; rfl⟩
  rcases Core.eq_or_eq_other c a.core with hc | hc <;>
    cases a <;> simp_all [step, exec, Step.core, Mail.acquire]

end Slos.Mailbox

import SyrocePms.Ledger.Journal
import SyrocePms.Lib.Threads

/-! Vouchers of the general ledger: they are drafted, submitted, approved and posted. A
call reads the voucher, looks at it, and writes under the status and the version that it
has read. -/

namespace SyrocePms.Ledger

open Lib

inductive VoucherStatus where
  | draft
  | submitted
  | approved
  | rejected
  | posting
  | posted
  | cancelled
  deriving DecidableEq

inductive VoucherType where
  | mahsup
  | tahsil
  | tediye
  | acilis
  | kapanis

/-- What the two approval modes of `gl_voucher_policies` ask for. -/
inductive ApprovalMode where
  | authorizedSelf
  | dualControl
  deriving DecidableEq

/-- `VoucherCreateIn`. -/
structure VoucherIn where
  date : ℕ
  type : VoucherType := .mahsup
  memo : ℕ := 0
  lines : List Line

/-- What `_normalized_voucher_payload` makes of it. -/
structure VoucherContent where
  date : ℕ
  type : VoucherType
  memo : ℕ
  lines : JournalLines

/-- The content that an edit replaced, with the editor. -/
structure Revision where
  version : ℕ
  editor : ℕ
  content : VoucherContent
  status : VoucherStatus

/-- A row of `gl_vouchers`. -/
structure Voucher where
  id : ℕ
  content : VoucherContent
  status : VoucherStatus := .draft
  version : ℕ := 1
  createdBy : ℕ
  approvedBy : Option ℕ := none
  approvalMode : Option ApprovalMode := none
  selfApproved : Bool := false
  claim : Option ℕ := none
  entry : Option Entry := none
  revisions : List Revision := []

namespace Voucher

/-- The users who have replaced the content. -/
def editors (v : Voucher) : List ℕ := v.revisions.map Revision.editor

/-- The users who have written content of the voucher. -/
def authors (v : Voucher) : List ℕ := v.createdBy :: v.editors

def edit (v : Voucher) (actor : ℕ) (content : VoucherContent) : Voucher := { v with
  content := content
  status := .draft
  version := v.version + 1
  revisions := v.revisions ++ [⟨v.version, actor, v.content, v.status⟩] }

def move (v : Voucher) (status : VoucherStatus) : Voucher :=
  { v with status := status, version := v.version + 1 }

def approve (v : Voucher) (actor : ℕ) (mode : ApprovalMode) : Voucher := { v with
  status := .approved
  version := v.version + 1
  approvedBy := some actor
  approvalMode := some mode
  selfApproved := v.createdBy == actor }

def beginPosting (v : Voucher) (claim : ℕ) : Voucher :=
  { v with status := .posting, version := v.version + 1, claim := some claim }

def failPosting (v : Voucher) : Voucher := { v with status := .approved, claim := none }

def finishPosting (v : Voucher) (e : Entry) : Voucher :=
  { v with status := .posted, claim := none, entry := some e }

@[simp] theorem id_edit (v : Voucher) (actor : ℕ) (c : VoucherContent) : (v.edit actor c).id = v.id := rfl

@[simp] theorem id_move (v : Voucher) (status : VoucherStatus) : (v.move status).id = v.id := rfl

@[simp] theorem id_approve (v : Voucher) (actor : ℕ) (mode : ApprovalMode) :
    (v.approve actor mode).id = v.id := rfl

@[simp] theorem id_beginPosting (v : Voucher) (claim : ℕ) : (v.beginPosting claim).id = v.id := rfl

@[simp] theorem id_failPosting (v : Voucher) : v.failPosting.id = v.id := rfl

@[simp] theorem id_finishPosting (v : Voucher) (e : Entry) : (v.finishPosting e).id = v.id := rfl

def job (v : Voucher) : Job where
  date := v.content.date
  source := .other v.id
  lines := v.content.lines.lines
  key := some (.other v.id)

end Voucher

/-- The users with the roles of `_GL_ROLES` may write vouchers. -/
structure User where
  id : ℕ
  glRole : Bool := true

structure VoucherStore where
  books : Books
  mode : ApprovalMode
  vouchers : Collection Voucher Voucher.id

namespace VoucherStore

def normalized (x : VoucherIn) : Option VoucherContent :=
  match normalizeJournalLines x.lines, normalizePostingDate x.date with
  | .ok lines, some date => some ⟨date, x.type, x.memo, lines⟩
  | _, _ => none

def accountsValid (s : VoucherStore) (c : VoucherContent) : Bool :=
  (s.books.accountError c.lines.lines).isNone

/-- `_validate_voucher_context`: the periods after it, when the period is open and the
accounts are active. -/
def validContext (s : VoucherStore) (c : VoucherContent) : Option Periods :=
  match s.books.periods.openFor c.date with
  | none => none
  | some (periods, _) => if s.accountsValid c then some periods else none

def setPeriods (s : VoucherStore) (periods : Periods) : VoucherStore :=
  { s with books := { s.books with periods := periods } }

/-- A write under status and version. -/
def update (s : VoucherStore) (v : Voucher) (f : Voucher → Voucher) (hf : ∀ v, (f v).id = v.id) :
    Option VoucherStore :=
  if s.vouchers.any fun x => x.id == v.id && x.status == v.status && x.version == v.version then
    some { s with vouchers := s.vouchers.update v.id f hf }
  else none

end VoucherStore

/-- An action that moves the status and asks for nothing else. -/
inductive VoucherAction where
  | submit
  | reject
  | cancel

namespace VoucherAction

def eligible : VoucherAction → List VoucherStatus
  | .submit => [.draft]
  | .reject => [.submitted]
  | .cancel => [.draft, .rejected]

def target : VoucherAction → VoucherStatus
  | .submit => .submitted
  | .reject => .rejected
  | .cancel => .cancelled

def checksContext : VoucherAction → Bool
  | .submit => true
  | _ => false

end VoucherAction

/-- Where a call stands. `post` says that an approval is followed by the post. -/
inductive VoucherPc where
  | create (x : VoucherIn)
  | updateRead (id : ℕ) (x : VoucherIn) (version : ℕ)
  | updateWrite (before : Voucher) (c : VoucherContent)
  | actionRead (a : VoucherAction) (id : ℕ)
  | actionContext (a : VoucherAction) (v : Voucher)
  | actionWrite (a : VoucherAction) (v : Voucher)
  | finalize (id : ℕ)
  | approvePolicy (id : ℕ) (allowDraft : Bool)
  | approveRead (id : ℕ) (allowDraft : Bool) (mode : ApprovalMode)
  | approveContext (v : Voucher) (mode : ApprovalMode) (post : Bool)
  | approveWrite (v : Voucher) (mode : ApprovalMode) (post : Bool)
  | postRead (id : ℕ)
  | postPolicy (v : Voucher)
  | postContext (v : Voucher)
  | postClaim (v : Voucher)
  | postAgain (id claim : ℕ)
  | postEntry (v : Voucher) (claim : ℕ)
  | postFailed (v : Voucher) (claim : ℕ)
  | postMark (v : Voucher) (e : Entry)
  | returned

structure VoucherThread where
  user : User
  pc : VoucherPc

inductive VoucherCall where
  | create (u : User) (x : VoucherIn)
  | update (u : User) (id : ℕ) (x : VoucherIn) (version : ℕ)
  | action (u : User) (a : VoucherAction) (id : ℕ)
  | approve (u : User) (id : ℕ)
  | finalize (u : User) (id : ℕ)
  | post (u : User) (id : ℕ)

/-- Every endpoint asks for the role first. -/
def VoucherThread.begin (c : VoucherCall) : VoucherThread :=
  let start (u : User) (pc : VoucherPc) : VoucherThread := ⟨u, if u.glRole then pc else .returned⟩
  match c with
  | .create u x => start u (.create x)
  | .update u id x version => start u (.updateRead id x version)
  | .action u a id => start u (.actionRead a id)
  | .approve u id => start u (.approvePolicy id false)
  | .finalize u id => start u (.finalize id)
  | .post u id => start u (.postRead id)

/-- One operation of call number `k`. `final` says whether the journal ordinal before that
of a post is settled. -/
def voucherStep (k : ℕ) (s : VoucherStore) (actor : ℕ) (final : Bool) :
    VoucherPc → Option (VoucherStore × VoucherPc)
  | .create x =>
    match VoucherStore.normalized x with
    | none => some (s, .returned)
    | some c =>
      if s.accountsValid c then
        (s.vouchers.insertOne { id := k, content := c, createdBy := actor }).map fun vouchers =>
          ({ s with vouchers := vouchers }, .returned)
      else some (s, .returned)
  | .updateRead id x version =>
    some (s, match s.vouchers.get? id with
      | none => .returned
      | some v =>
        if (v.status = .draft ∨ v.status = .rejected) ∧ v.version = version then
          match VoucherStore.normalized x with
          | some c => if s.accountsValid c then .updateWrite v c else .returned
          | none => .returned
        else .returned)
  | .updateWrite before c =>
    -- the filter has both statuses, and the version
    if s.vouchers.any fun x => x.id == before.id && (x.status == .draft || x.status == .rejected) &&
        x.version == before.version then
      some ({ s with vouchers := s.vouchers.update before.id (·.edit actor c) fun v => v.id_edit actor c },
        .returned)
    else some (s, .returned)
  | .actionRead a id =>
    some (s, match s.vouchers.findOne fun v => v.id == id && a.eligible.contains v.status with
      | none => .returned
      | some v => if a.checksContext then .actionContext a v else .actionWrite a v)
  | .actionContext a v =>
    match s.validContext v.content with
    | none => some (s, .returned)
    | some periods => some (s.setPeriods periods, .actionWrite a v)
  | .actionWrite a v =>
    some ((s.update v (·.move a.target) fun v => v.id_move a.target).getD s, .returned)
  | .finalize id =>
    some (s, match s.vouchers.get? id with
      | none => .returned
      | some v =>
        if v.status = .posted ∨ v.status = .posting ∨ v.status = .approved then .postRead id
        else .approvePolicy id true)
  | .approvePolicy id allowDraft =>
    some (s, if allowDraft ∧ s.mode ≠ .authorizedSelf then .returned
      else .approveRead id allowDraft s.mode)
  | .approveRead id allowDraft mode =>
    let eligible := if allowDraft then [.draft, .submitted] else [.submitted, .approved]
    some (s, match s.vouchers.findOne fun v => v.id == id && eligible.contains v.status with
      | none => .returned
      | some v =>
        if v.status = .approved ∧ ¬ (mode = .dualControl ∧ v.approvedBy = some v.createdBy) then .returned
        else if v.createdBy = actor ∧ mode = .dualControl then .returned
        else .approveContext v mode allowDraft)
  | .approveContext v mode post =>
    match s.validContext v.content with
    | none => some (s, .returned)
    | some periods => some (s.setPeriods periods, .approveWrite v mode post)
  | .approveWrite v mode post =>
    match s.update v (·.approve actor mode) fun v => v.id_approve actor mode with
    | none => some (s, .returned)
    | some s' => some (s', if post then .postRead v.id else .returned)
  | .postRead id =>
    some (s, match s.vouchers.get? id with
      | none => .returned
      | some v =>
        if v.status = .posted ∧ v.entry.isSome then .returned
        else if v.status = .approved then .postPolicy v
        else if v.status = .posting then .postContext v
        else .returned)
  | .postPolicy v =>
    some (s, if s.mode = .dualControl ∧ v.approvedBy = some v.createdBy then .returned
      else .postContext v)
  | .postContext v =>
    match s.validContext v.content with
    | none => some (s, .returned)
    | some periods =>
      some (s.setPeriods periods,
        if v.status = .approved then .postClaim v else .postEntry v (v.claim.getD k))
  | .postClaim v =>
    match s.update v (·.beginPosting (v.claim.getD k)) fun x => x.id_beginPosting _ with
    | none => some (s, .returned)
    | some s' => some (s', .postAgain v.id (v.claim.getD k))
  | .postAgain id claim =>
    some (s, match s.vouchers.get? id with
      | none => .returned
      | some v => .postEntry v claim)
  | .postEntry v claim =>
    let r := s.books.postJournalEntry v.job final
    some ({ s with books := r.1 }, match r.2 with
      | .error _ => .postFailed v claim
      | .ok e => .postMark v e)
  | .postFailed v claim =>
    if s.vouchers.any fun x => x.id == v.id && x.status == .posting && x.claim == some claim then
      some ({ s with vouchers := s.vouchers.update v.id (·.failPosting) fun x => x.id_failPosting },
        .returned)
    else some (s, .returned)
  | .postMark v e =>
    if s.vouchers.any fun x => x.id == v.id && x.status == .posting then
      some ({ s with vouchers := s.vouchers.update v.id (·.finishPosting e) fun x => x.id_finishPosting e },
        .returned)
    else some (s, .returned)
  | .returned => none

@[simp] theorem voucherStep_returned (k : ℕ) (s : VoucherStore) (actor : ℕ) (final : Bool) :
    voucherStep k s actor final .returned = none := by
  simp only [voucherStep]

inductive VoucherMove where
  | advance (final : Bool)
  | stop

/-- A call that is stopped by an exception or a crash writes nothing more. -/
def VoucherThread.step (k : ℕ) (s : VoucherStore) (t : VoucherThread) :
    VoucherMove → Option (VoucherStore × VoucherThread)
  | .advance final => (voucherStep k s t.user.id final t.pc).map fun r => (r.1, { t with pc := r.2 })
  | .stop => some (s, { t with pc := .returned })

/-- The calls of one tenant from books without vouchers. The mode is changed by
`save_voucher_approval_policy`. -/
def voucherCalls : Program VoucherStore VoucherThread ApprovalMode VoucherCall VoucherMove where
  init s := s.vouchers = .empty
  env s mode := some { s with mode := mode }
  call _ c := some (.begin c)
  step k s t m := t.step k s m

end SyrocePms.Ledger

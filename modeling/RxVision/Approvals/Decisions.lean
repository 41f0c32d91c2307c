import RxVision.Approvals.Policy

/-!
# Deciding and reopening an item (`approvals.service.ts`, `break-approvals.use-case.ts`)

A decision is two steps: the item and its person are read and checked (`checkDecide`,
`checkReopen`), and then a transaction of its own writes the row if it is still in an expected
status (`ApprovalItem.decide`). Breaks, meetings and away stretches make the same checks in the same
order and differ in their words; a running meeting is refused once more.
-/

namespace RxVision

/-- The words of one kind of item in refusals. -/
structure ItemTexts where
  unknown : String
  own : String
  waitsForOther : String
  needsNone : String
  notYours : String
  notDecided : String

/-- The refusals of the three kinds. -/
def ApprovalType.texts : ApprovalType → ItemTexts
  | .brk => {
      unknown := "Unknown break"
      own := "You can't decide your own break."
      waitsForOther := "This break is waiting for someone else to decide."
      needsNone := "This break needs no approval."
      notYours := "This break is not yours to decide."
      notDecided := "Only an approved or rejected break can be reopened." }
  | .meeting => {
      unknown := "Unknown meeting"
      own := "You can't decide your own meeting."
      waitsForOther := "This meeting is waiting for someone else to decide."
      needsNone := "This meeting needs no approval."
      notYours := "This meeting is not yours to decide."
      notDecided := "Only an approved or rejected meeting can be reopened." }
  | .away => {
      unknown := "Unknown away time"
      own := "You can't decide your own away time."
      waitsForOther := "This is waiting for someone else to decide."
      needsNone := "This needs no approval."
      notYours := "This is not yours to decide."
      notDecided := "Only an approved or rejected item can be reopened." }

namespace BreakApprovalPolicy

/-- `canView`: who may see an item in a list or report. -/
def canView (actor : AuthenticatedUser) (recordUserId : ℕ) (subject : Option ApprovalSubject) :
    Bool :=
  if recordUserId = actor.id then true
  else
    match subject with
    | none => false
    | some subject =>
      match actorFor actor subject with
      | none => false
      | some acting => canSeePerson acting subject.facts

end BreakApprovalPolicy

/-- `assertApprover`. -/
def assertApprover (me : AuthenticatedUser) : Except AppException Unit := do
  refuseIf (!seesWholeOrg me && me.role ≠ .manager)
    (.forbidden "Only managers and admins decide approvals." "FORBIDDEN")
  (if allOrgsInView me then .ok () else (requireOrg me).map fun _ => ())

/-- `findAnyByIds` of one id: the person of an item, deleted or not. -/
def Directory.subjectOf (d : Directory) (userId : ℕ) : Option ApprovalSubject :=
  (d.users.find? fun u => u.id = userId).map d.toPerson

/-- What a decision finds wrong with the status of the item it read. -/
def alreadyDecided (record : ApprovalItem) : AppException :=
  match record.status with
  | .approved => .conflict "Already approved." "ALREADY_DECIDED"
  | .rejected => .conflict "Already rejected." "ALREADY_DECIDED"
  | _ => .conflict record.type.texts.needsNone "ALREADY_DECIDED"

/-- The checks of a decision, on the item as read. -/
def checkDecide (d : Directory) (me : AuthenticatedUser) (record : ApprovalItem) :
    Except AppException Unit := do
  assertApprover me
  refuseIf (!BreakApprovalPolicy.canView me record.userId (d.subjectOf record.userId))
    (.notFound record.type.texts.unknown "NOT_FOUND")
  refuseIf (record.userId = me.id) (.forbidden record.type.texts.own "FORBIDDEN")
  refuseIf (!BreakApprovalPolicy.canDecide me record.userId (d.subjectOf record.userId))
    (.forbidden record.type.texts.waitsForOther "FORBIDDEN")
  refuseIf (record.status ≠ .pending) (alreadyDecided record)
  refuseIf (record.type = .meeting && record.endedAt.isNone)
    (.conflict "This meeting is still running. Decide it once it has ended." "MEETING_IN_PROGRESS")

/-- The checks of a reopen, on the item as read. -/
def checkReopen (d : Directory) (me : AuthenticatedUser) (record : ApprovalItem) :
    Except AppException Unit := do
  assertApprover me
  refuseIf (!BreakApprovalPolicy.canView me record.userId (d.subjectOf record.userId))
    (.notFound record.type.texts.unknown "NOT_FOUND")
  refuseIf (!BreakApprovalPolicy.canDecide me record.userId (d.subjectOf record.userId))
    (.forbidden record.type.texts.notYours "FORBIDDEN")
  refuseIf (!DECIDED.contains record.status)
    (.conflict record.type.texts.notDecided "NOT_DECIDED")
  refuseIf (!seesWholeOrg me && record.decidedById ≠ some me.id)
    (.forbidden "Only the person who decided it, or the admin, can reopen it." "FORBIDDEN")

end RxVision

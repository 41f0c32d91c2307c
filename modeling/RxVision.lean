import RxVision.Activity.Conservation
import RxVision.Approvals.Overrun
import RxVision.Approvals.SlaMarks
import RxVision.Approvals.Waiting
import RxVision.Auth.OneRefresh
import RxVision.Auth.Revocation
import RxVision.Auth.SignIn
import RxVision.Chat.Messages
import RxVision.Departments.LinksSound
import RxVision.Live.Eviction
import RxVision.Live.Subjects
import RxVision.Organisations.MembershipSound
import RxVision.Presence.OnlineSessions
import RxVision.Records.BreakOver
import RxVision.Records.SpansInOrder
import RxVision.Replay.Idempotence
import RxVision.Replay.Order
import RxVision.Replay.RefusedDay
import RxVision.Replay.RouteText
import RxVision.Reports.DateKeys
import RxVision.Reports.FrozenMonth
import RxVision.Reports.MonthReports
import RxVision.Reports.StoredPattern
import RxVision.Reports.Timeline
import RxVision.Settings.IdleSettings
import RxVision.Settings.NoWriteLost
import RxVision.Shifts.Assignments
import RxVision.Shifts.ClockChange
import RxVision.Shifts.ShiftDays
import RxVision.Shifts.ShiftNames
import RxVision.SignOutKeys.GuessLimit
import RxVision.Tenancy.Isolation
import RxVision.Tenancy.OrgExists
import RxVision.Users.NoEditUndone
import RxVision.Worktime.DayDataFresh
import RxVision.Worktime.EndDay
import RxVision.Worktime.FocusDecisions
import RxVision.Worktime.LateSamples

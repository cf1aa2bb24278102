import RtSched.Base.Call
import RtSched.Base.Loop
import RtSched.Base.Ring
import RtSched.Base.Demand
import RtSched.Base.FixedPriority
import RtSched.Base.PrioArray
import RtSched.Base.Best
import RtSched.Base.SpinLock
import RtSched.Base.Run
import RtSched.Base.Word
import RtSched.Base.CString
import RtSched.Timespec
import RtSched.TimespecWord
import RtSched.Task
import RtSched.Enforcement
import RtSched.Switch
import RtSched.GroupStop
import RtSched.Reserve
import RtSched.Guarantee
import RtSched.PmRequest
import RtSched.RtQueue
import RtSched.FifoRun
import RtSched.Accounting
import RtSched.Admission
import RtSched.AdmissionWord
import RtSched.Priority
import RtSched.Registry
import RtSched.BudgetWord
import RtSched.Clock
import RtSched.HrTimer
import RtSched.LockOrder
import RtSched.CpuFreq
import RtSched.BinPacking
import RtSched.UtilSort
import RtSched.Syscall
import RtSched.SysClock
import RtSched.OwnWalk
import RtSched.SysClockWord
import RtSched.SysClockWrap
import RtSched.SysClockSafe
import RtSched.Inflate
import RtSched.Effect
import RtSched.PmClock
import RtSched.PmSysClock
import RtSched.Leader
import RtSched.ListInvariant
import RtSched.StopRun
import RtSched.AdmissionRun
import RtSched.AdmissionExact
import RtSched.Placement
import RtSched.Packed
import RtSched.PriorityRun
import RtSched.CriticalInstant
import RtSched.LegalPriority
import RtSched.FlagRun
import RtSched.ExitRun
import RtSched.CpuListRun
import RtSched.ClockRun
import RtSched.ScaleRun
import RtSched.Isolation
import RtSched.FirstFit
import RtSched.RankFit
import RtSched.Affinity
import RtSched.Logging
import RtSched.LogContents
import RtSched.WaitPeriod
import RtSched.Enforced
import RtSched.ModeRun
import RtSched.Capacity
import RtSched.FailedPacking
import RtSched.ClockTotal
import RtSched.AdmissionCall
import RtSched.History
import RtSched.Backlight
import RtSched.ProcessList

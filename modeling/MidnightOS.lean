import MidnightOS.Nyxboot.FreeTables
import MidnightOS.Nyxboot.BootImage
import MidnightOS.Nyxboot.LoadAuto
import MidnightOS.Nyxboot.SegmentOverflow
import MidnightOS.Nyxboot.LoadCleanup
import MidnightOS.Nyxboot.SectionSize
import MidnightOS.Nyxboot.Handover
import MidnightOS.Nyxboot.ConfigCleanup
import MidnightOS.Nyxboot.TableReads
import MidnightOS.Nyxboot.BootPartition
import MidnightOS.Nyxboot.MainBoot
import MidnightOS.Arch.Transparency
import MidnightOS.Debug.DbgMsg
import MidnightOS.Debug.Stale
import MidnightOS.Debug.Breakpoints
import MidnightOS.Debug.LineEdit
import MidnightOS.Debug.TypedBack
import MidnightOS.Debug.Resume
import MidnightOS.Arch.SetupIdt
import MidnightOS.Mbuild.OwnStatements
import MidnightOS.Mbuild.SwallowedErrors
import MidnightOS.Mbuild.Emit
import MidnightOS.Mbuild.Termination
import MidnightOS.Mbuild.FileText

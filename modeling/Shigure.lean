import Shigure.Kb.Runs
import Shigure.Sh.Runs
import Shigure.Paging.FrameRuns
import Shigure.Paging.Early
import Shigure.Avl.Links
import Shigure.Avl.Runs
import Shigure.Pm.BlockRuns
import Shigure.Pm.Single
import Shigure.Vm.HeapRuns
import Shigure.Vm.KHeapRuns
import Shigure.Vm.Release
import Shigure.Vm.Sizes
import Shigure.Libc.Numerals
import Shigure.Isr.Frames
import Shigure.Initrd.RoundTrip
import Shigure.Sh.Line
import Shigure.Sh.Erase
import Shigure.Paging.Detect
import Shigure.Pm.Sizes
import Shigure.Paging.Shrink
import Shigure.Process.Stack
import Shigure.Paging.RecursionLaws
import Shigure.Paging.Starved
import Shigure.Sh.Session
import Shigure.Isr.Pic
import Shigure.Vm.Whole
import Shigure.Pm.Exact
import Shigure.Process.Fork
import Shigure.Vm.Contents
import Shigure.Initrd.Listing

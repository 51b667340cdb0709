import DebianKernel.Debian.ConfigLayers
import DebianKernel.Debian.ConfigScope
import DebianKernel.Debian.TextWrap
import DebianKernel.Debian.Firmware
import DebianKernel.Debian.KconfigMl
import DebianKernel.Debian.MakefileText
import DebianKernel.Debian.LinuxVersion
import DebianKernel.Debian.MergePackages
import DebianKernel.Debian.RelationText
import DebianKernel.DebianLinux.SortVersions
import DebianKernel.DiskId.ShellSound
import DebianKernel.DiskId.ShellUpdate
import DebianKernel.DiskId.Fstab
import DebianKernel.DiskId.DriveIds
import DebianKernel.DiskId.Grub1
import DebianKernel.DiskId.LiloUpdate
import DebianKernel.DiskId.UpdateConfig
import DebianKernel.DiskId.SetNewIds
import DebianKernel.DiskId.Transition
import DebianKernel.Image.BootLinks
import DebianKernel.DiskId.Mdadm
import DebianKernel.Debian.Control
import DebianKernel.Debian.StableUpdate
import DebianKernel.Image.LinkRemoval
import DebianKernel.Lib.PathMaze
import DebianKernel.Lib.DirWalk
import DebianKernel.Debian.FirmwarePackage
import DebianKernel.Lib.Chain
import DebianKernel.Carl9170.Dma
import DebianKernel.Carl9170.Rings
import DebianKernel.Carl9170.Traffic
import DebianKernel.Lib.Shares
import DebianKernel.Carl9170.Queues
import DebianKernel.Carl9170.Frames
import DebianKernel.Carl9170.Board
import DebianKernel.Carl9170.Ledger
import DebianKernel.Carl9170.Refine
import DebianKernel.Carl9170.Start
import DebianKernel.Carl9170.Runs
import DebianKernel.FwConfig.Expr
import DebianKernel.FwConfig.Equal
import DebianKernel.FwConfig.Transform
import DebianKernel.FwConfig.Join
import DebianKernel.FwConfig.Operands
import DebianKernel.FwConfig.Dups
import DebianKernel.FwConfig.Compare
import DebianKernel.FwConfig.Menu
import DebianKernel.FwConfig.MenuTree

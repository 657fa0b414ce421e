import InfoGlobe.Library.StepSystem
import InfoGlobe.Library.FlatMemory
import InfoGlobe.Library.MachineWords
import InfoGlobe.Library.FifoSender
import InfoGlobe.Library.RegisterFile
import InfoGlobe.Library.CallLog
import InfoGlobe.Library.ResourceLedger
import InfoGlobe.Library.Ownership
import InfoGlobe.Library.FramedStream
import InfoGlobe.Library.StringCompare
import InfoGlobe.Library.ListParts
import InfoGlobe.Library.SlotUpdate
import InfoGlobe.Library.CheckedBlock
import InfoGlobe.Library.WireFormat
import InfoGlobe.Firmware.MessageType
import InfoGlobe.Firmware.IrLedTask
import InfoGlobe.Firmware.IrCounters
import InfoGlobe.Firmware.IrTransmission
import InfoGlobe.Firmware.IrCarrier
import InfoGlobe.Firmware.TcpHelpers
import InfoGlobe.Firmware.TcpServerTask
import InfoGlobe.Firmware.ButtonTcpTask
import InfoGlobe.Firmware.Animations
import InfoGlobe.Firmware.DisplaySources
import InfoGlobe.Firmware.OtaRetransmit
import InfoGlobe.Firmware.OtaIntegrity
import InfoGlobe.Firmware.OtaServerTask
import InfoGlobe.Firmware.OtaLedger
import InfoGlobe.Firmware.ButtonTable
import InfoGlobe.Firmware.AcceptLoop
import InfoGlobe.Firmware.MessageBoundaries
import InfoGlobe.Firmware.SocketLedger
import InfoGlobe.Firmware.SshDriver
import InfoGlobe.Firmware.SshTask
import InfoGlobe.Firmware.SshLedger
import InfoGlobe.Firmware.RunSshTask
import InfoGlobe.Firmware.SshHandshake
import InfoGlobe.Firmware.MessageOwnership
import InfoGlobe.Firmware.ReadChannel
import InfoGlobe.Firmware.PacketConfinement
import InfoGlobe.Firmware.ShellSession
import InfoGlobe.Firmware.OtaVersionGate
import InfoGlobe.Firmware.OtaCompleteness
import InfoGlobe.Firmware.ClockFreshness
import InfoGlobe.Firmware.ColonBlink
import InfoGlobe.Firmware.LookupIp
import InfoGlobe.Firmware.ExactEcho
import InfoGlobe.Firmware.FrameMaker
import InfoGlobe.Firmware.ClockFace
import InfoGlobe.Firmware.OtaProgress
import InfoGlobe.Client.TcpWorker
import InfoGlobe.Client.OtaVerdict
import InfoGlobe.Client.WorkingTab
import InfoGlobe.Client.UserInput
import InfoGlobe.Client.HexEntry
import InfoGlobe.Ssh.StringBuf
import InfoGlobe.Ssh.MessageFields
import InfoGlobe.Ssh.NameList
import InfoGlobe.Ssh.KexAgree
import InfoGlobe.Ssh.Negotiation
import InfoGlobe.Ssh.KexInit
import InfoGlobe.Ssh.MethodPref
import InfoGlobe.Ssh.Agreement
import InfoGlobe.Ssh.Banner
import InfoGlobe.Ssh.ChannelRead
import InfoGlobe.Ssh.ChannelQueue
import InfoGlobe.Ssh.ChannelWindow
import InfoGlobe.Ssh.ChannelLink
import InfoGlobe.System.ButtonLink
import InfoGlobe.System.OtaLink
import InfoGlobe.System.OtaAgreement
import InfoGlobe.System.OtaAck
import InfoGlobe.System.TextEncoders
import InfoGlobe.System.ButtonStream
import InfoGlobe.System.UpdateSafety
import InfoGlobe.System.MessagePath
import InfoGlobe.System.OtaDelivery
import InfoGlobe.System.Startup
import InfoGlobe.System.RemoteCommand
import InfoGlobe.System.PressEnds

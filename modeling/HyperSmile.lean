import HyperSmile.Theory.SavedPatch
import HyperSmile.Guest.Limit
import HyperSmile.Guest.Trampoline
import HyperSmile.Guest.TrampolineRace
import HyperSmile.Guest.Crc
import HyperSmile.Guest.Jxdev
import HyperSmile.Guest.JxdevRace
import HyperSmile.App.CommandPage
import HyperSmile.Host.Hypercall
import HyperSmile.Theory.ByteMemory
import HyperSmile.Anchor.Machine
import HyperSmile.Anchor.Measure
import HyperSmile.Anchor.CommandLoop
import HyperSmile.Crypto.Aes
import HyperSmile.Crypto.AesRoundTrip
import HyperSmile.Crypto.Fips197
import HyperSmile.Crypto.AesFips
import HyperSmile.Enclave.Sse
import HyperSmile.Enclave.AesNi
import HyperSmile.Crypto.Gcm
import HyperSmile.Enclave.AesGcm
import HyperSmile.Enclave.GcmTag
import HyperSmile.Crypto.Rsa
import HyperSmile.Theory.PowerMap
import HyperSmile.Crypto.RsaArith
import HyperSmile.Crypto.RsaMessage
import HyperSmile.Crypto.RsaKey
import HyperSmile.Crypto.RsaStream
import HyperSmile.App.Secret
import HyperSmile.Enclave.Sealing
import HyperSmile.Crypto.Md5
import HyperSmile.Crypto.Md5Stream
import HyperSmile.Guest.CalcMd5
import HyperSmile.Guest.CrcPolynomial
import HyperSmile.Guest.Hcrc
import HyperSmile.Guest.PageWalk
import HyperSmile.Guest.HideLoop
import HyperSmile.Guest.V2p
import HyperSmile.Crypto.Jacobi
import HyperSmile.Enclave.Dump
import HyperSmile.Enclave.Report
import HyperSmile.Crypto.Solovay
import HyperSmile.Crypto.RsaSearch
import HyperSmile.Crypto.ReadFile
import HyperSmile.Theory.ReflectedProduct
import HyperSmile.Crypto.Md5Total
import HyperSmile.Enclave.GhashProduct
import HyperSmile.Theory.CharArray
import HyperSmile.Theory.Printf
import HyperSmile.Host.KvmCount
import HyperSmile.Theory.BlockChaining
import HyperSmile.Crypto.Aes128
import HyperSmile.Guest.JxdevRuns
import HyperSmile.Guest.JxdevWriters
import HyperSmile.Theory.BitErrors
import HyperSmile.Guest.CrcDistance
import HyperSmile.Anchor.Attack
import HyperSmile.App.ReporterEntry
import HyperSmile.Host.GuestMemory

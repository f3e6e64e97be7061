import TinyLlm.Lib.Loop
import TinyLlm.Lib.Interval
import TinyLlm.Ac.Coder
import TinyLlm.Ac.Encoder
import TinyLlm.Ac.Decoder
import TinyLlm.Ac.Table
import TinyLlm.Lib.Tiling
import TinyLlm.Status
import TinyLlm.Ac.RoundTrip
import TinyLlm.Ac.Counts
import TinyLlm.Ac.Room
import TinyLlm.Ac.Token
import TinyLlm.Sem.Host
import TinyLlm.Sem.RoundTrip
import TinyLlm.Lib.Bytes
import TinyLlm.Lib.Relational
import TinyLlm.Lib.Footprint
import TinyLlm.Kernels.Block
import TinyLlm.Kernels.Dsp
import TinyLlm.Kernels.Dequant
import TinyLlm.Model.Store
import TinyLlm.Model.Format
import TinyLlm.Model.Open
import TinyLlm.Forward.Memory
import TinyLlm.Forward.Ops
import TinyLlm.Model.Streaming
import TinyLlm.Model.Accepted
import TinyLlm.Model.Walk
import TinyLlm.Forward.Streaming
import TinyLlm.Model.Image
import TinyLlm.Ac.Message
import TinyLlm.Ac.Length
import TinyLlm.Ac.Overflow
import TinyLlm.Ac.Safety
import TinyLlm.Sem.Corrupt
import TinyLlm.Lib.Search
import TinyLlm.Tok.Piece
import TinyLlm.Tok.Encode
import TinyLlm.Tok.RoundTrip
import TinyLlm.Sem.Message
import TinyLlm.Sem.Board
import TinyLlm.Sem.Interop
import TinyLlm.Sem.Text
import TinyLlm.Lib.NdArray
import TinyLlm.Convert.Rope
import TinyLlm.Ac.Worst
import TinyLlm.Ac.Delta
import TinyLlm.Sem.Worst
import TinyLlm.Chat.Ansi
import TinyLlm.Chat.Stats
import TinyLlm.Chat.Framer
import TinyLlm.Chat.Session
import TinyLlm.Chat.Command
import TinyLlm.Model.Bounds
import TinyLlm.Lib.Bump
import TinyLlm.Lib.ByteMemory
import TinyLlm.Tok.Init
import TinyLlm.Tok.Reads
import TinyLlm.Tok.Visits
import TinyLlm.Tok.Tables
import TinyLlm.Firmware.Layout
import TinyLlm.Firmware.Psram
import TinyLlm.Firmware.Shell
import TinyLlm.Ac.Order
import TinyLlm.Convert.Writer
import TinyLlm.Convert.Tensors
import TinyLlm.Convert.Accepted
import TinyLlm.Convert.Reader
import TinyLlm.Convert.Total
import TinyLlm.Model.Arena
import TinyLlm.Convert.RoundTrip
import TinyLlm.Forward.Arena
import TinyLlm.Forward.Tile
import TinyLlm.Lib.Touches
import TinyLlm.Forward.Footprint
import TinyLlm.Forward.History
import TinyLlm.Forward.Flat
import TinyLlm.Convert.Names
import TinyLlm.Lib.Champion
import TinyLlm.Lib.Bpe
import TinyLlm.Tok.Bracket
import TinyLlm.Tok.Exported
import TinyLlm.Chat.Chunking
import TinyLlm.Chat.Footer
import TinyLlm.Chat.Prompt
import TinyLlm.Lib.Utf8
import TinyLlm.Chat.Backend
import TinyLlm.Chat.Heard
import TinyLlm.Chat.Dirty
import TinyLlm.Lib.Heap
import TinyLlm.Sample.Heapsort
import TinyLlm.Sample.Sampler
import TinyLlm.Lib.TopMass
import TinyLlm.Sample.Nucleus
import TinyLlm.Tok.Limit
import TinyLlm.Lib.Ieee
import TinyLlm.Kernels.Half
import TinyLlm.Kernels.Quantize
import TinyLlm.Convert.Quantize
import TinyLlm.Lib.Protobuf
import TinyLlm.Convert.SentencePiece
import TinyLlm.Forward.Context
import TinyLlm.Forward.Engine
import TinyLlm.Sem.Engine
import TinyLlm.Sample.Draw
import TinyLlm.Sample.Generate
import TinyLlm.Lib.Causal
import TinyLlm.Forward.Transformer
import TinyLlm.Forward.Values
import TinyLlm.Forward.Decode
import TinyLlm.Forward.Frame
import TinyLlm.Forward.Wrapped
import TinyLlm.Forward.Restart
import TinyLlm.Convert.Reference
import TinyLlm.Convert.Numpy
import TinyLlm.Convert.Oracle
import TinyLlm.Convert.Agreement

import ClOs.HeapLimits
import ClOs.PathLookup
import ClOs.Fat32Freeing
import ClOs.Ext3Creation
import ClOs.Ext3Mounting
import ClOs.Ext3Listing
import ClOs.Ext3Links
import ClOs.BootMemory
import ClOs.KernelHalf
import ClOs.PageWalks
import ClOs.KernelStart
import ClOs.ElfConfinement
import ClOs.VgaDeletion
import ClOs.SelectionLoop
import ClOs.ProcessStack
import ClOs.Fat32Walks
import ClOs.Fat32Mirrors
import ClOs.Fat32Storing
import ClOs.Fat32Folders
import ClOs.Fat32Listing
import ClOs.Keyboard
import ClOs.VgaNumbers
import ClOs.PrivateContexts
import ClOs.AtaTransfers
import ClOs.Ext3Cursors
import ClOs.Ext3Additions
import ClOs.Ext3Folders
